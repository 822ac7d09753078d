import DocForms.Document.Validation

namespace DocForms

/-- The rules of a scalar, in a column of a type or in the context, which has none. -/
def Value.LawfulScalar (type? : Option ColumnType) : Value → Prop
  | .string s => s.utf8ByteSize ≤ lengthLimit ∧ ∀ t ∈ type?, t = .string
  | .float x => x.isFinite = true ∧ ∀ t ∈ type?, t = .float
  | .int n => ∀ t ∈ type?, t = .int ∨ (t = .base62 ∧ 0 ≤ n)
  | .bool _ => ∀ t ∈ type?, t = .bool
  | .array _ => False

/-- The rules of a value: an array has lawful scalars as items, and not too many. -/
def Value.Lawful (type? : Option ColumnType) : Value → Prop
  | .array items => items.length ≤ lengthLimit ∧ ∀ item ∈ items, item.LawfulScalar type?
  | v => v.LawfulScalar type?

theorem Value.lawful_scalar {type? : Option ColumnType} {v : Value} (hv : v.isArray = false) :
    v.Lawful type? ↔ v.LawfulScalar type? := by
  cases v with
  | array items => cases hv
  | _ => exact Iff.rfl

/-- The rules of a row: one lawful value for each stored column. -/
structure Section.LawfulRow (s : Section) (row : Row) : Prop where
  width : row.length = s.storedWidth
  cells : ∀ p ∈ s.storedColumns.zip row, p.2.Lawful (some p.1.type)

structure Section.Lawful (s : Section) : Prop where
  named : isName s.id = true
  notReserved : s.id ≠ reservedId
  columnsNamed : ∀ c ∈ s.columns, isName c.name = true
  columnsDiffer : (s.columns.map Column.name).Nodup
  stored : s.storedWidth ≠ 0
  oneAutoId : s.columns.length ≤ s.storedWidth + 1
  rows : ∀ row ∈ s.rows, s.LawfulRow row

structure Document.Lawful (d : Document) : Prop where
  context : ∀ e ∈ d.context.entries, isName e.1 = true ∧ e.2.Lawful none
  sectionsDiffer : (d.sections.map Section.id).Nodup
  sections : ∀ s ∈ d.sections, s.Lawful

theorem name_violations_nil {name : String} : nameViolations name = [] ↔ isName name = true := by
  unfold nameViolations
  split <;> simp_all

theorem unless_nil {p : Prop} [Decidable p] {v : Violation} :
    (if p then [v] else []) = [] ↔ ¬p := by
  split <;> simp_all

namespace Value

theorem type_violations_nil {location : String} {t : ColumnType} {v : Value} :
    v.typeViolations location t = [] ↔ t.accepts v = true := by
  unfold typeViolations
  split
  · simp only [unless_nil, ColumnType.accepts, ColumnType.acceptsScalar, decide_eq_true_eq]
    exact Int64.not_lt
  · split <;> simp_all

theorem accepts_string {t : ColumnType} {s : String} :
    t.accepts (.string s) = true ↔ t = .string := by
  cases t <;> simp [ColumnType.accepts, ColumnType.acceptsScalar]

theorem accepts_float {t : ColumnType} {x : Number.Double} :
    t.accepts (.float x) = true ↔ t = .float := by
  cases t <;> simp [ColumnType.accepts, ColumnType.acceptsScalar]

theorem accepts_bool {t : ColumnType} {b : Bool} : t.accepts (.bool b) = true ↔ t = .bool := by
  cases t <;> simp [ColumnType.accepts, ColumnType.acceptsScalar]

theorem accepts_int {t : ColumnType} {n : Int64} :
    t.accepts (.int n) = true ↔ t = .int ∨ (t = .base62 ∧ 0 ≤ n) := by
  cases t <;> simp [ColumnType.accepts, ColumnType.acceptsScalar]

theorem scalar_type_violations_nil {type? : Option ColumnType} {location : String} {v : Value} :
    (type?.map fun t => v.typeViolations location t).getD [] = [] ↔
      ∀ t ∈ type?, t.accepts v = true := by
  cases type? with
  | none => simp
  | some t => simp [type_violations_nil]

theorem scalar_violations_nil {type? : Option ColumnType} {location : String} {v : Value}
    (hv : v.isArray = false) :
    v.scalarViolations type? location = [] ↔ v.LawfulScalar type? := by
  rw [scalarViolations, List.append_eq_nil_iff, scalar_type_violations_nil]
  cases v with
  | bool b => simp [sizeViolations, LawfulScalar, accepts_bool]
  | int n => simp [sizeViolations, LawfulScalar, accepts_int]
  | float x =>
    simp only [sizeViolations, LawfulScalar, accepts_float]
    split <;> simp_all
  | string s =>
    simp only [sizeViolations, LawfulScalar, accepts_string, unless_nil, Nat.not_lt]
  | array items => cases hv

theorem violations_nil {type? : Option ColumnType} {location : String} {v : Value} :
    v.violations type? location = [] ↔ v.Lawful type? := by
  cases v with
  | array items =>
    simp only [violations, Lawful, List.append_eq_nil_iff, unless_nil, Nat.not_lt,
      List.flatMap_eq_nil_iff]
    refine and_congr_right fun _ => forall_congr' fun item => imp_congr_right fun _ => ?_
    cases hi : item.isArray with
    | true =>
      cases item with
      | array _ => simp [LawfulScalar]
      | _ => cases hi
    | false => simpa using scalar_violations_nil hi
  | _ => exact scalar_violations_nil rfl

end Value

namespace Section

theorem column_violations_nil {id : String} {seen : List String} {columns : List Column} :
    columnViolations id seen columns = [] ↔
      (∀ c ∈ columns, isName c.name = true ∧ c.name ∉ seen) ∧
        (columns.map Column.name).Nodup := by
  induction columns generalizing seen with
  | nil => simp [columnViolations]
  | cons c cs ih =>
    simp only [columnViolations, List.append_eq_nil_iff, name_violations_nil, unless_nil, ih,
      List.contains_eq_mem, decide_eq_true_eq, List.mem_cons, List.map_cons, List.nodup_cons,
      List.mem_map, not_exists, not_and, not_or]
    constructor
    · rintro ⟨⟨hname, hseen⟩, hrest, hnodup⟩
      refine ⟨?_, fun d hd => (hrest d hd).2.1, hnodup⟩
      rintro d (rfl | hd)
      · exact ⟨hname, hseen⟩
      · exact ⟨(hrest d hd).1, (hrest d hd).2.2⟩
    · rintro ⟨hall, hdiffer, hnodup⟩
      exact ⟨hall c (.inl rfl),
        fun d hd => ⟨(hall d (.inr hd)).1, hdiffer d hd, (hall d (.inr hd)).2⟩, hnodup⟩

theorem row_violations_nil {s : Section} {index : Nat} {row : Row} :
    s.rowViolations index row = [] ↔ s.LawfulRow row := by
  unfold rowViolations
  split
  · rename_i h
    simp only [List.cons_ne_nil, false_iff]
    exact fun hr => h hr.width
  · rename_i h
    simp only [List.flatMap_eq_nil_iff, Value.violations_nil]
    exact ⟨fun hc => ⟨Decidable.not_not.mp h, hc⟩, fun hr => hr.cells⟩

theorem rows_violations_nil {s : Section} :
    (s.rows.zipIdx.flatMap fun (row, index) => s.rowViolations index row) = [] ↔
      ∀ row ∈ s.rows, s.LawfulRow row := by
  simp only [List.flatMap_eq_nil_iff, row_violations_nil]
  constructor
  · intro h row hrow
    obtain ⟨i, hi, rfl⟩ := List.getElem_of_mem hrow
    exact h (s.rows[i], i) (List.mk_mem_zipIdx_iff_getElem?.mpr (List.getElem?_eq_getElem hi))
  · rintro h ⟨row, index⟩ hp
    exact h row (List.fst_mem_of_mem_zipIdx hp)

theorem violations_nil {s : Section} : s.violations = [] ↔ s.Lawful := by
  simp only [violations, List.append_eq_nil_iff, name_violations_nil, unless_nil,
    column_violations_nil, rows_violations_nil, List.not_mem_nil, not_false_eq_true, and_true]
  constructor
  · rintro ⟨⟨⟨⟨⟨hname, hid⟩, hcolumns, hdiffer⟩, hstored⟩, hauto⟩, hrows⟩
    exact ⟨hname, hid, hcolumns, hdiffer, hstored, by omega, hrows⟩
  · rintro ⟨hname, hid, hcolumns, hdiffer, hstored, hauto, hrows⟩
    exact ⟨⟨⟨⟨⟨hname, hid⟩, hcolumns, hdiffer⟩, hstored⟩, by omega⟩, hrows⟩

end Section

namespace Document

theorem context_violations_nil {c : Context} :
    contextViolations c = [] ↔ ∀ e ∈ c.entries, isName e.1 = true ∧ e.2.Lawful none := by
  simp only [contextViolations, List.flatMap_eq_nil_iff, List.append_eq_nil_iff,
    name_violations_nil, Value.violations_nil]

theorem section_violations_nil {seen : List String} {sections : List Section} :
    sectionViolations seen sections = [] ↔
      (∀ s ∈ sections, s.Lawful ∧ s.id ∉ seen) ∧ (sections.map Section.id).Nodup := by
  induction sections generalizing seen with
  | nil => simp [sectionViolations]
  | cons s ss ih =>
    simp only [sectionViolations, List.append_eq_nil_iff, unless_nil, Section.violations_nil, ih,
      List.contains_eq_mem, decide_eq_true_eq, List.mem_cons, List.map_cons, List.nodup_cons,
      List.mem_map, not_exists, not_and, not_or]
    constructor
    · rintro ⟨⟨hseen, hlawful⟩, hrest, hnodup⟩
      refine ⟨?_, fun t ht => (hrest t ht).2.1, hnodup⟩
      rintro t (rfl | ht)
      · exact ⟨hlawful, hseen⟩
      · exact ⟨(hrest t ht).1, (hrest t ht).2.2⟩
    · rintro ⟨hall, hdiffer, hnodup⟩
      exact ⟨⟨(hall s (.inl rfl)).2, (hall s (.inl rfl)).1⟩,
        fun t ht => ⟨(hall t (.inr ht)).1, hdiffer t ht, (hall t (.inr ht)).2⟩, hnodup⟩

/-- The check finds exactly the documents that keep all rules. -/
theorem violations_nil {d : Document} : d.violations = [] ↔ d.Lawful := by
  simp only [violations, List.append_eq_nil_iff, context_violations_nil, section_violations_nil,
    List.not_mem_nil, not_false_eq_true, and_true]
  exact ⟨fun ⟨hc, hs, hd⟩ => ⟨hc, hd, hs⟩, fun h => ⟨h.context, h.sections, h.sectionsDiffer⟩⟩

theorem is_valid_iff {d : Document} : d.isValid = true ↔ d.Lawful := by
  rw [isValid, List.isEmpty_iff, violations_nil]

end Document

/-- A document with values of every kind. -/
def shelf : Document where
  context := ⟨[("name", .string "007"), ("open", .bool true), ("depth", .float ⟨0x8000000000000000⟩),
    ("none", .array []),
    ("tags", .array [.string "*a, \"b\"", .string "more than fourteen bytes"])], by decide⟩
  sections := [
    ⟨"books", [⟨"id", .autoId⟩, ⟨"title", .string⟩, ⟨"copies", .base62⟩],
      [[.string "# not a comment", .int 62], [.string "two\nlines", .array [.int 1]]]⟩,
    ⟨"c", [⟨"done", .bool⟩], []⟩]

end DocForms
