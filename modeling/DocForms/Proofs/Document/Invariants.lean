import DocForms.Proofs.Document.Rules
import Mathlib.Data.List.Forall2

namespace DocForms
open Text

/-- A letter or an underscore. -/
def StartsName (c : Char) : Prop :=
  ('A' ≤ c ∧ c ≤ 'Z') ∨ ('a' ≤ c ∧ c ≤ 'z') ∨ c = '_'

/-- A letter, a digit, an underscore, a point or a dash. -/
def ContinuesName (c : Char) : Prop :=
  StartsName c ∨ ('0' ≤ c ∧ c ≤ '9') ∨ c = '.' ∨ c = '-'

/-- A text of the form `[A-Za-z_][A-Za-z0-9_.-]*`. -/
def Named (s : String) : Prop :=
  ∃ c cs, s.toList = c :: cs ∧ StartsName c ∧ ∀ d ∈ cs, ContinuesName d

theorem is_letter_iff {c : Char} :
    isLetter c = true ↔ ('a' ≤ c ∧ c ≤ 'z') ∨ ('A' ≤ c ∧ c ≤ 'Z') := by
  simp [isLetter]

theorem is_name_start_iff {c : Char} : isNameStart c = true ↔ StartsName c := by
  simp only [isNameStart, StartsName, Bool.or_eq_true, is_letter_iff, beq_iff_eq]
  tauto

theorem is_name_rest_iff {c : Char} : isNameRest c = true ↔ ContinuesName c := by
  simp only [isNameRest, ContinuesName, StartsName, Bool.or_eq_true, is_letter_iff, beq_iff_eq,
    isDigit, Bool.and_eq_true, decide_eq_true_eq]
  tauto

theorem is_name_iff {s : String} : isName s = true ↔ Named s := by
  rw [isName, Named]
  cases s.toList with
  | nil => simp [isNameText]
  | cons c cs =>
    simp only [isNameText, Bool.and_eq_true, List.all_eq_true, is_name_start_iff, is_name_rest_iff]
    constructor
    · exact fun h => ⟨c, cs, rfl, h⟩
    · rintro ⟨_, _, heq, h⟩
      cases heq
      exact h

namespace Value

/-- A scalar that every written form can hold. -/
inductive Storable : Value → Prop
  | bool (b : Bool) : Storable (.bool b)
  | int (n : Int64) : Storable (.int n)
  | float (x : Number.Double) (h : x.isFinite = true) : Storable (.float x)
  | string (s : String) (h : s.utf8ByteSize ≤ 65535) : Storable (.string s)

/-- A scalar, or an array of scalars only. -/
inductive Flat : Value → Prop
  | scalar (v : Value) (h : Storable v) : Flat v
  | array (items : List Value) (few : items.length ≤ 65535) (h : ∀ item ∈ items, Storable item) :
    Flat (.array items)

/-- A scalar of a column's type. -/
inductive OfType : ColumnType → Value → Prop
  | string (s : String) : OfType .string (.string s)
  | int (n : Int64) : OfType .int (.int n)
  | float (x : Number.Double) : OfType .float (.float x)
  | bool (b : Bool) : OfType .bool (.bool b)
  | base62 (n : Int64) (h : 0 ≤ n) : OfType .base62 (.int n)

/-- A value agrees with a type if it is of that type or, as an array, each of its items is. -/
inductive Agrees (t : ColumnType) : Value → Prop
  | scalar (v : Value) (h : OfType t v) : Agrees t v
  | array (items : List Value) (h : ∀ item ∈ items, OfType t item) : Agrees t (.array items)

theorem lawful_scalar_iff {type? : Option ColumnType} {v : Value} :
    v.LawfulScalar type? ↔ v.Storable ∧ ∀ t ∈ type?, OfType t v := by
  cases v with
  | bool b =>
    refine ⟨fun h => ⟨.bool b, fun t ht => ?_⟩, fun h t ht => ?_⟩
    · rw [h t ht]
      exact .bool b
    · cases h.2 t ht
      rfl
  | int n =>
    refine ⟨fun h => ⟨.int n, fun t ht => ?_⟩, fun h t ht => ?_⟩
    · rcases h t ht with rfl | ⟨rfl, hn⟩
      · exact .int n
      · exact .base62 n hn
    · cases h.2 t ht with
      | int => exact .inl rfl
      | base62 _ hn => exact .inr ⟨rfl, hn⟩
  | float x =>
    refine ⟨fun h => ⟨.float x h.1, fun t ht => ?_⟩, fun h => ⟨?_, fun t ht => ?_⟩⟩
    · rw [h.2 t ht]
      exact .float x
    · cases h.1 with
      | float _ hx => exact hx
    · cases h.2 t ht
      rfl
  | string s =>
    refine ⟨fun h => ⟨.string s h.1, fun t ht => ?_⟩, fun h => ⟨?_, fun t ht => ?_⟩⟩
    · rw [h.2 t ht]
      exact .string s
    · cases h.1 with
      | string _ hs => exact hs
    · cases h.2 t ht
      rfl
  | array items => exact ⟨False.elim, fun h => nomatch h.1⟩

theorem flat_scalar {v : Value} (hv : v.isArray = false) : v.Flat ↔ v.Storable := by
  refine ⟨fun h => ?_, .scalar v⟩
  cases h with
  | scalar _ h => exact h
  | array => cases hv

theorem agrees_scalar {t : ColumnType} {v : Value} (hv : v.isArray = false) :
    v.Agrees t ↔ OfType t v := by
  refine ⟨fun h => ?_, .scalar v⟩
  cases h with
  | scalar _ h => exact h
  | array => cases hv

theorem flat_array {items : List Value} :
    (Value.array items).Flat ↔ items.length ≤ 65535 ∧ ∀ item ∈ items, item.Storable := by
  refine ⟨fun h => ?_, fun h => .array items h.1 h.2⟩
  cases h with
  | scalar _ h => cases h
  | array _ few h => exact ⟨few, h⟩

theorem agrees_array {t : ColumnType} {items : List Value} :
    (Value.array items).Agrees t ↔ ∀ item ∈ items, OfType t item := by
  refine ⟨fun h => ?_, .array items⟩
  cases h with
  | scalar _ h => cases h
  | array _ h => exact h

/-- The rules of a value are those of its size and those of its type. -/
theorem lawful_iff {type? : Option ColumnType} {v : Value} :
    v.Lawful type? ↔ v.Flat ∧ ∀ t ∈ type?, v.Agrees t := by
  cases hv : v.isArray with
  | false => simp only [lawful_scalar hv, lawful_scalar_iff, flat_scalar hv, agrees_scalar hv]
  | true =>
    cases v with
    | array items =>
      simp only [Lawful, lengthLimit, lawful_scalar_iff, flat_array, agrees_array]
      constructor
      · rintro ⟨few, h⟩
        exact ⟨⟨few, fun item hitem => (h item hitem).1⟩,
          fun t ht item hitem => (h item hitem).2 t ht⟩
      · rintro ⟨⟨few, hstorable⟩, htype⟩
        exact ⟨few, fun item hitem => ⟨hstorable item hitem, fun t ht => htype t ht item hitem⟩⟩
    | _ => cases hv

end Value

/-- One value per stored column, each of its type. -/
def Section.SoundRow (s : Section) (row : Row) : Prop :=
  List.Forall₂ (fun c v => v.Agrees c.type ∧ v.Flat) (s.columns.filter (·.type ≠ .autoId)) row

structure Section.Sound (s : Section) : Prop where
  named : Named s.id
  notConfig : s.id ≠ "config"
  columnsNamed : ∀ c ∈ s.columns, Named c.name
  columnsDiffer : (s.columns.map Column.name).Nodup
  stored : ∃ c ∈ s.columns, c.type ≠ .autoId
  autoIds : s.columns.countP (·.type = .autoId) ≤ 1
  rows : ∀ row ∈ s.rows, s.SoundRow row

structure Document.Sound (d : Document) : Prop where
  keysNamed : ∀ key ∈ d.context.keys, Named key
  valuesFlat : ∀ v ∈ d.context.values, v.Flat
  idsDiffer : (d.sections.map Section.id).Nodup
  sections : ∀ s ∈ d.sections, s.Sound

namespace Section
variable {s : Section}

theorem stored_columns_eq (s : Section) :
    s.storedColumns = s.columns.filter (·.type ≠ .autoId) := by
  rw [storedColumns]
  refine List.filter_congr fun c _ => ?_
  rw [Bool.eq_iff_iff]
  simp [ColumnType.isStored]

theorem lawful_row_iff {row : Row} : s.LawfulRow row ↔ s.SoundRow row := by
  rw [SoundRow, ← stored_columns_eq, List.forall₂_iff_zip]
  constructor
  · rintro ⟨hwidth, hcells⟩
    refine ⟨hwidth.symm, fun {c v} hp => ?_⟩
    obtain ⟨hflat, htype⟩ := Value.lawful_iff.mp (hcells (c, v) hp)
    exact ⟨htype c.type rfl, hflat⟩
  · rintro ⟨hwidth, hcells⟩
    refine ⟨hwidth.symm, fun p hp => Value.lawful_iff.mpr ?_⟩
    obtain ⟨htype, hflat⟩ := hcells hp
    refine ⟨hflat, fun t ht => ?_⟩
    cases ht
    exact htype

theorem stored_iff : s.storedWidth ≠ 0 ↔ ∃ c ∈ s.columns, c.type ≠ .autoId := by
  rw [storedWidth, stored_columns_eq, ← Nat.pos_iff_ne_zero, List.length_filter_pos_iff]
  simp

theorem auto_ids_iff :
    s.columns.length ≤ s.storedWidth + 1 ↔ s.columns.countP (·.type = .autoId) ≤ 1 := by
  have hsplit : s.columns.length = s.columns.countP (·.type = .autoId) + s.storedWidth := by
    rw [storedWidth, stored_columns_eq, ← List.countP_eq_length_filter,
      List.length_eq_countP_add_countP (·.type = .autoId)]
    simp
  omega

theorem lawful_iff_sound : s.Lawful ↔ s.Sound := by
  constructor
  · rintro ⟨hname, hid, hcolumns, hdiffer, hstored, hauto, hrows⟩
    exact ⟨is_name_iff.mp hname, hid, fun c hc => is_name_iff.mp (hcolumns c hc), hdiffer,
      stored_iff.mp hstored, auto_ids_iff.mp hauto, fun row hrow => lawful_row_iff.mp (hrows row hrow)⟩
  · rintro ⟨hname, hid, hcolumns, hdiffer, hstored, hauto, hrows⟩
    exact ⟨is_name_iff.mpr hname, hid, fun c hc => is_name_iff.mpr (hcolumns c hc), hdiffer,
      stored_iff.mpr hstored, auto_ids_iff.mpr hauto, fun row hrow => lawful_row_iff.mpr (hrows row hrow)⟩

end Section

namespace Document

theorem lawful_iff_sound {d : Document} : d.Lawful ↔ d.Sound := by
  constructor
  · rintro ⟨hcontext, hdiffer, hsections⟩
    refine ⟨?_, ?_, hdiffer, fun s hs => Section.lawful_iff_sound.mp (hsections s hs)⟩
    · intro key hkey
      obtain ⟨e, he, rfl⟩ := List.mem_map.mp hkey
      exact is_name_iff.mp (hcontext e he).1
    · intro v hv
      obtain ⟨e, he, rfl⟩ := List.mem_map.mp hv
      exact (Value.lawful_iff.mp (hcontext e he).2).1
  · rintro ⟨hkeys, hvalues, hdiffer, hsections⟩
    refine ⟨fun e he => ⟨?_, ?_⟩, hdiffer, fun s hs => Section.lawful_iff_sound.mpr (hsections s hs)⟩
    · exact is_name_iff.mpr (hkeys e.1 (List.mem_map_of_mem he))
    · exact Value.lawful_iff.mpr ⟨hvalues e.2 (List.mem_map_of_mem he), nofun⟩

/-- The check lists nothing for exactly the documents whose names, columns, rows and values keep to the
format. -/
theorem no_violation_iff_sound (d : Document) : d.violations = [] ↔ d.Sound := by
  rw [violations_nil, lawful_iff_sound]

end Document
end DocForms
