import DocForms.Proofs.Document.Violations
import DocForms.Proofs.Json.Paths
import Mathlib.Data.List.Perm.Subperm

namespace DocForms.Json

section Types
variable {scalars : List Json}

def OfBools (scalars : List Json) : Prop :=
  scalars ≠ [] ∧ ∀ j ∈ scalars, ∃ b, j = .bool b

def OfInts (scalars : List Json) : Prop :=
  scalars ≠ [] ∧ ∀ j ∈ scalars, ∃ n i, j = .number n ∧ n.asInt64? = some i

def OfFloats (scalars : List Json) : Prop :=
  scalars ≠ [] ∧ (∀ j ∈ scalars, ∃ n, j = .number n) ∧ ¬OfInts scalars

/-- The type that scalars tell: one of theirs, if they have one, and else that of strings. -/
structure Tells (scalars : List Json) (t : ColumnType) : Prop where
  bool : t = .bool ↔ OfBools scalars
  int : t = .int ↔ OfInts scalars
  float : t = .float ↔ OfFloats scalars
  string : t = .string ↔ ¬OfBools scalars ∧ ¬OfInts scalars ∧ ¬OfFloats scalars

theorem is_bool_iff {j : Json} : isBool j = true ↔ ∃ b, j = .bool b := by
  cases j <;> simp [isBool]

theorem is_int64_iff {j : Json} :
    isInt64 j = true ↔ ∃ n i, j = .number n ∧ n.asInt64? = some i := by
  cases j <;> simp [isInt64, Option.isSome_iff_exists]

theorem is_number_iff {j : Json} : isNumber j = true ↔ ∃ n, j = .number n := by
  cases j <;> simp [isNumber]

theorem of_bools_iff : OfBools scalars ↔ scalars ≠ [] ∧ scalars.all isBool = true := by
  simp only [OfBools, List.all_eq_true, is_bool_iff]

theorem of_ints_iff : OfInts scalars ↔ scalars ≠ [] ∧ scalars.all isInt64 = true := by
  simp only [OfInts, List.all_eq_true, is_int64_iff]

theorem of_floats_iff :
    OfFloats scalars ↔ scalars ≠ [] ∧ scalars.all isNumber = true ∧ ¬OfInts scalars := by
  simp only [OfFloats, List.all_eq_true, is_number_iff]

/-- No scalar is both a truth value and a number. -/
theorem not_bools_of_numbers (hne : scalars ≠ []) (h : scalars.all isNumber = true) :
    scalars.all isBool = false := by
  obtain ⟨j, rest, rfl⟩ := List.exists_cons_of_ne_nil hne
  rw [List.all_cons, Bool.and_eq_true] at h
  obtain ⟨n, rfl⟩ := is_number_iff.mp h.1
  rfl

theorem numbers_of_ints (h : scalars.all isInt64 = true) : scalars.all isNumber = true := by
  refine List.all_eq_true.mpr fun j hj => ?_
  obtain ⟨n, -, rfl, -⟩ := is_int64_iff.mp (List.all_eq_true.mp h j hj)
  rfl

/-- The type of a column is the one that its scalars tell. -/
theorem column_type_tells (column : List Json) : Tells (columnScalars column) (columnType column) := by
  unfold columnType
  generalize columnScalars column = scalars
  dsimp only
  by_cases hne : scalars = []
  · constructor <;> simp [hne, OfBools, OfInts, OfFloats]
  · rw [if_neg (by simpa using hne)]
    by_cases hnumbers : scalars.all isNumber = true
    · have hbools := not_bools_of_numbers hne hnumbers
      rw [hbools, if_neg Bool.false_ne_true]
      by_cases hints : scalars.all isInt64 = true
      all_goals
        constructor <;> simp only [of_bools_iff, of_ints_iff, of_floats_iff] <;> simp [*]
    · have hints : ¬scalars.all isInt64 = true := fun h => hnumbers (numbers_of_ints h)
      by_cases hbools : scalars.all isBool = true
      all_goals
        constructor <;> simp only [of_bools_iff, of_ints_iff, of_floats_iff] <;> simp [*]

/-- No other types are told. -/
theorem Tells.among {t : ColumnType} (h : Tells scalars t) :
    t = .bool ∨ t = .int ∨ t = .float ∨ t = .string := by
  rw [h.bool, h.int, h.float, h.string]
  tauto

end Types

section Scalars
variable {column : List Json} {location : String} {j : Json} {v : Value}

/-- A scalar of a column is read as a value of the type that the column is given. -/
theorem typed_accepted (hj : j ∈ columnScalars column)
    (h : readTyped (columnType column) location j = .ok v) :
    (columnType column).acceptsScalar v = true := by
  have htells := column_type_tells column
  rcases htells.among with htype | htype | htype | htype
  · obtain ⟨b, rfl⟩ := (htells.bool.mp htype).2 j hj
    rw [htype] at h ⊢
    cases h
    rfl
  · obtain ⟨n, i, rfl, hi⟩ := (htells.int.mp htype).2 j hj
    rw [htype] at h ⊢
    cases h
    rw [numberValue, hi]
    rfl
  · obtain ⟨n, rfl⟩ := (htells.float.mp htype).2.1 j hj
    rw [htype] at h ⊢
    cases h
    rfl
  · rw [htype] at h ⊢
    cases j with
    | null | array _ | object _ => cases h
    | _ =>
      cases h
      rfl

/-- A value of a column is read as a value of its type, scalar or array. -/
theorem flat_accepted (hj : j ∈ column)
    (h : readFlat (readTyped (columnType column)) location j = .ok v) :
    (columnType column).accepts v = true := by
  have hsingle (hscalar : j ∈ columnScalars column)
      (hread : readTyped (columnType column) location j = .ok v) :
      (columnType column).accepts v = true := by
    have harray := typed_no_array hread
    cases v with
    | array items => cases harray
    | _ => exact typed_accepted hscalar hread
  cases j with
  | array items =>
    obtain ⟨values, hvalues, hv⟩ := bind_eq_ok.mp h
    cases hv
    refine List.all_eq_true.mpr fun value hvalue => ?_
    obtain ⟨⟨item, i⟩, hitem, hread⟩ := mapM_ok_mem hvalues hvalue
    exact typed_accepted
      (List.mem_flatMap.mpr ⟨_, hj, List.fst_mem_of_mem_zipIdx hitem⟩) hread
  | _ => exact hsingle (List.mem_flatMap.mpr ⟨_, hj, List.mem_singleton_self _⟩) h

end Scalars

/-- The values of a field, object by object. -/
def fieldValues (rows : List Members) (name : String) : List Json :=
  rows.filterMap (·.lookup name)

section Reading
variable {id name : String} {rows : List Members} {s : Section}

/-- A column that is read holds the values of its field. -/
theorem read_column_fields {c : Column} {cells : List Value}
    (h : readColumn id rows name = .ok (c, cells)) :
    c = ⟨name, columnType (fieldValues rows name)⟩ ∧ cells.length = rows.length ∧
      ∀ (r : Nat) row, rows[r]? = some row → ∃ j v, row.lookup name = some j ∧ cells[r]? = some v ∧
        j ∈ fieldValues rows name ∧
        readFlat (readTyped c.type) s!"{rowLocation id r}.{name}" j = .ok v := by
  obtain ⟨raw, ⟨hcount, hraw⟩, rfl, hlength, hcells⟩ := read_column_ok.mp h
  have hvalues : rows.map (·.lookup name) = raw.map some := by
    refine List.ext_getElem (by simpa using hcount) fun r hr hr' => ?_
    simp only [List.getElem_map]
    exact hraw r _ _ (List.getElem?_eq_getElem _) (List.getElem?_eq_getElem _)
  have hfields : fieldValues rows name = raw := by
    have hfound := congrArg (List.filterMap fun found => found) hvalues
    simpa [fieldValues, List.filterMap_map, Function.comp_def] using hfound
  rw [hfields]
  refine ⟨rfl, (hcount.trans hlength).symm, fun r row hrow => ?_⟩
  have hr := (List.getElem?_eq_some_iff.mp hrow).1
  have hrRaw : r < raw.length := hcount ▸ hr
  have hrCells : r < cells.length := hlength ▸ hrRaw
  have hj := List.getElem?_eq_getElem hrRaw
  have hv := List.getElem?_eq_getElem hrCells
  exact ⟨_, _, hraw r row _ hrow hj, hv, List.getElem_mem _, hcells r _ _ hj hv⟩

/-- A section is read from objects that all have as many fields as the first. -/
theorem read_section_widths (h : readSection id rows = .ok s) :
    ∀ row ∈ rows, row.length = (rows.headD []).length := by
  intro row hrow
  obtain ⟨i, hi⟩ := List.mem_iff_getElem?.mp hrow
  rw [readSection] at h
  dsimp only at h
  split at h
  · cases h
  · rename_i hnone
    have hall := List.find?_eq_none.mp hnone (row, i) (List.mk_mem_zipIdx_iff_getElem?.mpr hi)
    simpa using hall

/-- Objects that are read as a section have the same fields. -/
theorem read_section_fields (h : readSection id rows = .ok s)
    (hkeys : ∀ row ∈ rows, (row.map Prod.fst).Nodup) :
    ∀ row ∈ rows, (row.map Prod.fst).Perm ((rows.headD []).map Prod.fst) := by
  intro row hrow
  obtain ⟨hnames, -, -, hcolumns⟩ := read_section_columns h
  have hfirst : ((rows.headD []).map Prod.fst).Nodup := by
    cases rows with
    | nil => exact List.nodup_nil
    | cons first rest => exact hkeys first (by simp)
  have hsubset : (rows.headD []).map Prod.fst ⊆ row.map Prod.fst := by
    intro name hname
    rw [← hnames] at hname
    obtain ⟨c, hc, rfl⟩ := List.mem_map.mp hname
    obtain ⟨k, hk⟩ := List.mem_iff_getElem?.mp hc
    obtain ⟨cells, hread, -⟩ := hcolumns k c hk
    obtain ⟨r, hr⟩ := List.mem_iff_getElem?.mp hrow
    obtain ⟨j, -, hj, -⟩ := (read_column_fields hread).2.2 r row hr
    exact List.mem_map_of_mem (mem_of_lookup hj)
  refine ((hfirst.subperm hsubset).perm_of_length_le (Nat.le_of_eq ?_)).symm
  rw [List.length_map, List.length_map, read_section_widths h row hrow]

end Reading

section Order
variable {id : String} {first : Members} {rest rest' : List Members}

/-- A column depends only on what the objects have under its name. -/
theorem read_column_congr {rows rows' : List Members} {name : String}
    (h : rows.map (·.lookup name) = rows'.map (·.lookup name)) :
    readColumn id rows name = readColumn id rows' name := by
  rw [readColumn, readColumn]
  refine congrArg (· >>= _) (mapM_zip_idx_congr (fun row row' i hfound => ?_) h 0)
  dsimp only
  rw [hfound]

/-- The place of the first object with another number of fields depends on these numbers only. -/
theorem find_length_congr {p : Members × Nat → Bool}
    (hp : ∀ a b i, a.length = b.length → p (a, i) = p (b, i)) {rows rows' : List Members}
    (h : rows.map List.length = rows'.map List.length) (n : Nat) :
    ((rows.zipIdx n).find? p).map Prod.snd = ((rows'.zipIdx n).find? p).map Prod.snd := by
  induction rows generalizing rows' n with
  | nil => rw [List.map_eq_nil_iff.mp h.symm]
  | cons row rows ih =>
    obtain ⟨row', rows', rfl, hrow, hrows⟩ := List.map_eq_cons_iff.mp h.symm
    rw [List.zipIdx_cons, List.zipIdx_cons, List.find?_cons, List.find?_cons,
      hp row row' n hrow.symm]
    cases p (row', n) with
    | true => rfl
    | false => exact ih hrows.symm (n + 1)

/-- A section depends only on the names in the first object, on the number of fields of each object and on
what the objects have under those names. -/
theorem read_section_congr (hlengths : rest.map List.length = rest'.map List.length)
    (h : ∀ name, rest.map (·.lookup name) = rest'.map (·.lookup name)) :
    readSection id (first :: rest) = readSection id (first :: rest') := by
  have hcount : rest.length = rest'.length := by simpa using congrArg List.length hlengths
  have hcolumns : readColumn id (first :: rest) = readColumn id (first :: rest') :=
    funext fun name => read_column_congr (by rw [List.map_cons, List.map_cons, h name])
  have hall : (first :: rest).map List.length = (first :: rest').map List.length := by
    rw [List.map_cons, List.map_cons, hlengths]
  rw [readSection, readSection]
  simp only [List.headD_cons, List.length_cons, hcolumns, hcount]
  split
  · rename_i hfind
    have hplace := (find_length_congr (fun a b i hab => by simp only [hab]) hall 0).symm.trans
      (congrArg (Option.map Prod.snd) hfind)
    obtain ⟨⟨row', i⟩, hfind', rfl⟩ := Option.map_eq_some_iff.mp hplace
    rw [hfind']
  · rename_i hfind
    have hplace := (find_length_congr (fun a b i hab => by simp only [hab]) hall 0).symm.trans
      (congrArg (Option.map Prod.snd) hfind)
    rw [Option.map_eq_none_iff.mp hplace]

/-- The fields of an object after the first may stand in any order. -/
theorem read_section_perm (hkeys : ∀ row ∈ rest, (row.map Prod.fst).Nodup)
    (hperm : List.Forall₂ List.Perm rest rest') :
    readSection id (first :: rest') = readSection id (first :: rest) := by
  have hboth := (List.forall₂_and_left rest rest').mpr ⟨hkeys, hperm⟩
  have hmap {α : Type} {f : Members → α}
      (hf : ∀ row row', (row.map Prod.fst).Nodup ∧ row.Perm row' → f row' = f row) :
      rest'.map f = rest.map f := by
    rw [← List.forall₂_eq_eq_eq, List.forall₂_map_left_iff, List.forall₂_map_right_iff]
    exact (hboth.imp hf).flip
  exact read_section_congr (hmap fun row row' h => h.2.length_eq.symm)
    fun name => hmap fun row row' h => lookup_perm h.1 h.2 name

end Order

/-- Violations that a row has against the columns of its table. -/
def Misfit : Violation → Prop
  | .rowArity .. | .typeMismatch .. => True
  | _ => False

/-- A table as it is read from objects. -/
structure TableOf (id : String) (rows : List Members) (s : Section) : Prop where
  names : s.columns.map Column.name = (rows.headD []).map Prod.fst
  types : ∀ c ∈ s.columns, Tells (columnScalars (fieldValues rows c.name)) c.type
  count : s.rows.length = rows.length
  /-- A cell is converted from the field that its own object has under the name of the column. -/
  cells : ∀ (r : Nat) row values, rows[r]? = some row → s.rows[r]? = some values →
    values.length = s.columns.length ∧ ∀ (k : Nat) c, s.columns[k]? = some c →
      ∃ j v, (c.name, j) ∈ row ∧ values[k]? = some v ∧
        readFlat (readTyped c.type) s!"{rowLocation id r}.{c.name}" j = .ok v ∧
        c.type.accepts v = true
  fits : ∀ x ∈ s.violations, ¬Misfit x

section Imports
variable {id : String} {rows : List Members} {s : Section}

theorem read_section_types (h : readSection id rows = .ok s) :
    ∀ c ∈ s.columns, c.type = columnType (fieldValues rows c.name) := by
  intro c hc
  obtain ⟨k, hk⟩ := List.mem_iff_getElem?.mp hc
  obtain ⟨cells, hread, -⟩ := (read_section_columns h).2.2.2 k c hk
  exact congrArg Column.type (read_column_fields hread).1

/-- The cell of a row under a column. -/
theorem read_section_cell (h : readSection id rows = .ok s) {r k : Nat} {row : Members} {values : Row}
    {c : Column} (hrow : rows[r]? = some row) (hvalues : s.rows[r]? = some values)
    (hc : s.columns[k]? = some c) : ∃ j v, (c.name, j) ∈ row ∧ values[k]? = some v ∧
      readFlat (readTyped c.type) s!"{rowLocation id r}.{c.name}" j = .ok v ∧
      c.type.accepts v = true := by
  obtain ⟨cells, hread, hat⟩ := (read_section_columns h).2.2.2 k c hc
  obtain ⟨j, v, hj, hv, hmem, hcell⟩ := (read_column_fields hread).2.2 r row hrow
  refine ⟨j, v, mem_of_lookup hj, by rw [hat r values hvalues, hv], hcell, ?_⟩
  rw [read_section_types h c (List.mem_of_getElem? hc)] at hcell ⊢
  exact flat_accepted hmem hcell

/-- No row of a table that was read is too short or too long, and no value has another type than its
column. -/
theorem read_section_fits (h : readSection id rows = .ok s) : ∀ x ∈ s.violations, ¬Misfit x := by
  obtain ⟨-, hcount, hwidths, hcolumns⟩ := read_section_columns h
  have hplain : ∀ c ∈ s.columns, c.type.spelledOut = c.type := fun c hc => by
    rw [read_section_types h c hc, column_type_plain]
  have hstored : s.storedColumns = s.columns := (plain_section hplain).2
  intro x hx hmisfit
  cases Section.fault_of_violation hx with
  | arity index values hvalues hlength =>
    rw [Section.storedWidth, hstored] at hlength
    exact hlength (hwidths values hvalues)
  | cell index values hvalues p hp x hfault =>
    cases hfault with
    | mismatch t found ht hrefused =>
      obtain ⟨k, hk⟩ := List.mem_iff_getElem?.mp hp
      obtain ⟨hc, hv⟩ := List.getElem?_zip_eq_some.mp hk
      obtain ⟨r, hr⟩ := List.mem_iff_getElem?.mp hvalues
      have hlt := (List.getElem?_eq_some_iff.mp hr).1
      rw [hcount] at hlt
      rw [hstored] at hc
      obtain ⟨j, v, -, hvalue, -, haccepts⟩ :=
        read_section_cell h (List.getElem?_eq_getElem hlt) hr hc
      cases ht
      cases hv.symm.trans hvalue
      rw [haccepts] at hrefused
      cases hrefused
    | _ => exact hmisfit
  | _ => exact hmisfit

theorem read_table (h : readSection id rows = .ok s) : TableOf id rows s := by
  obtain ⟨hnames, hcount, hwidths, -⟩ := read_section_columns h
  constructor
  case names => exact hnames
  case types =>
    intro c hc
    rw [read_section_types h c hc]
    exact column_type_tells _
  case count => exact hcount
  case cells =>
    intro r row values hrow hvalues
    exact ⟨hwidths values (List.mem_of_getElem? hvalues),
      fun k c hc => read_section_cell h hrow hvalues hc⟩
  case fits => exact read_section_fits h

end Imports

theorem set_member_keys {members : Members} (h : (members.map Prod.fst).Nodup) (key : String) (j : Json) :
    ((setMember members key j).map Prod.fst).Nodup := by
  unfold setMember
  split
  · have hsame : (members.map fun m => if m.1 == key then (key, j) else m).map Prod.fst =
        members.map Prod.fst := by
      rw [List.map_map]
      refine List.map_congr_left fun m _ => ?_
      by_cases hm : m.1 = key <;> simp [hm]
    rwa [hsame]
  · rename_i hnew
    rw [List.map_append, List.nodup_append]
    refine ⟨h, by simp, fun name hname other hother heq => hnew ?_⟩
    obtain ⟨m, hm, rfl⟩ := List.mem_map.mp hname
    rw [List.mem_singleton.mp hother] at heq
    exact List.any_eq_true.mpr ⟨m, hm, beq_iff_eq.mpr heq⟩

/-- Objects have no key twice once each key has its last value. -/
theorem distinct_members_keys (members : Members) : ((distinctMembers members).map Prod.fst).Nodup := by
  have hfold (before : Members) (h : (before.map Prod.fst).Nodup) :
      ((members.foldl (fun ms m => setMember ms m.1 m.2) before).map Prod.fst).Nodup := by
    induction members generalizing before with
    | nil => exact h
    | cons m ms ih => exact ih _ (set_member_keys h m.1 m.2)
  exact hfold [] List.nodup_nil

/-- So the objects of an array that is read as a section have no key twice. -/
theorem array_rows_keys {j : Json} {rows : List Members} (h : rowsOf? j.distinct = some rows) :
    ∀ row ∈ rows, (row.map Prod.fst).Nodup := by
  intro row hrow
  have hobject : Json.object row ∈ rows.map .object := List.mem_map_of_mem hrow
  have harray := array_of_rows h
  cases j with
  | array items =>
    rw [distinct, distinct_items_eq, Json.array.injEq] at harray
    rw [← harray] at hobject
    obtain ⟨item, -, hitem⟩ := List.mem_map.mp hobject
    cases item with
    | object members =>
      rw [distinct, Json.object.injEq] at hitem
      rw [← hitem]
      exact distinct_members_keys _
    | _ => cases hitem
  | _ => cases harray

/-- An array of objects is read as a table that its fields alone decide: the order of fields counts in the
first object only. Objects that do not all have the same fields are refused. -/
theorem objects_read_by_field (id : String) (first : Members) (rest : List Members)
    (hkeys : ∀ row ∈ first :: rest, (row.map Prod.fst).Nodup) :
    (∀ s, readSection id (first :: rest) = .ok s → TableOf id (first :: rest) s) ∧
    (∀ rest', List.Forall₂ List.Perm rest rest' →
      readSection id (first :: rest') = readSection id (first :: rest)) ∧
    ((∃ row ∈ rest, ¬∀ name, name ∈ row.map Prod.fst ↔ name ∈ first.map Prod.fst) →
      ∃ failure, readSection id (first :: rest) = .error failure) := by
  refine ⟨fun s => read_table, fun rest' hperm => ?_, fun ⟨row, hrow, hdiffer⟩ => ?_⟩
  · exact read_section_perm (fun row hrow => hkeys row (List.mem_cons_of_mem _ hrow)) hperm
  · cases hread : readSection id (first :: rest) with
    | error failure => exact ⟨failure, rfl⟩
    | ok s =>
      have hfields := read_section_fields hread hkeys row (List.mem_cons_of_mem _ hrow)
      exact absurd (fun name => hfields.mem_iff) hdiffer

section Example

def listed : Members :=
  [("n", .number (.int 1)), ("s", .string "x"),
    ("a", .array [.number (.int 1), .number (.float ⟨0x4004000000000000⟩)])]

def turned : Members :=
  [("s", .bool true), ("a", .array []), ("n", .number (.int 2))]

def straight : Members :=
  [("n", .number (.int 2)), ("s", .bool true), ("a", .array [])]

/-- Two objects as a table; the second has its fields in another order, or lacks one. -/
theorem objects_read_by_field_turned :
    (∀ row ∈ [listed, turned], (row.map Prod.fst).Nodup) ∧
    (∃ s, readSection "t" [listed, turned] = .ok s ∧ TableOf "t" [listed, turned] s ∧
      s.columns = [⟨"n", .int⟩, ⟨"s", .string⟩, ⟨"a", .float⟩]) ∧
    (List.Forall₂ List.Perm [turned] [straight] ∧
      readSection "t" [listed, straight] = readSection "t" [listed, turned]) ∧
    ∃ failure, readSection "t" [listed, turned.tail] = .error failure := by
  have hkeys : ∀ row ∈ [listed, turned], (row.map Prod.fst).Nodup := by decide
  obtain ⟨htable, hperm, -⟩ := objects_read_by_field "t" listed [turned] hkeys
  have hread : readSection "t" [listed, turned] = .ok ⟨"t",
      [⟨"n", .int⟩, ⟨"s", .string⟩, ⟨"a", .float⟩],
      [[.int 1, .string "x", .array [.float ⟨0x3FF0000000000000⟩, .float ⟨0x4004000000000000⟩]],
        [.int 2, .string "true", .array []]]⟩ := by decide +kernel
  have hsame : turned.Perm straight := List.perm_append_singleton _ turned.dropLast
  have hturned : List.Forall₂ List.Perm [turned] [straight] := .cons hsame .nil
  refine ⟨hkeys, ⟨_, hread, htable _ hread, rfl⟩, ⟨hturned, hperm _ hturned⟩, ?_⟩
  exact (objects_read_by_field "t" listed [turned.tail] (by decide)).2.2
    ⟨turned.tail, by simp, fun h => absurd ((h "s").mpr (by decide)) (by decide)⟩

end Example
end DocForms.Json
