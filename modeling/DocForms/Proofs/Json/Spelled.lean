import DocForms.Proofs.Document.Rows
import DocForms.Proofs.Document.Rules
import Mathlib.Data.List.InsertIdx

namespace DocForms

/-- The scalars of a value: the items of an array, or else the value itself. -/
def Value.scalars : Value → List Value
  | .array items => items
  | v => [v]

def ColumnType.spelledOut : ColumnType → ColumnType
  | .base62 | .autoId => .int
  | t => t

def Column.spelledOut (c : Column) : Column :=
  { c with type := c.type.spelledOut }

namespace Section

/-- The row at an index, with its number under the auto-id column. -/
def spelledRow (s : Section) (index : Nat) (row : Row) : Row :=
  match s.autoIdIndex? with
  | some k => row.insertIdx k (.int (autoIdValue index))
  | none => row

def spelledOut (s : Section) : Section where
  id := s.id
  columns := s.columns.map Column.spelledOut
  rows := s.rows.mapIdx s.spelledRow

/-- The scalars under a stored column. -/
def scalarsAt (s : Section) (k : Nat) : List Value :=
  (s.rows.filterMap (·[k]?)).flatMap Value.scalars

end Section

namespace Document

/-- The document with its row numbers stored, as integers, and its base-62 numbers as integers. -/
def spelledOut (d : Document) : Document :=
  { d with sections := d.sections.map Section.spelledOut }

def scalars (d : Document) : List Value :=
  (d.context.values ++ d.sections.flatMap fun s => s.rows.flatten).flatMap Value.scalars

end Document

theorem spelled_stored (t : ColumnType) : t.spelledOut.isStored = true := by
  cases t <;> rfl

/-- Under at most one auto-id column, a row has its number in its place. -/
theorem splice_spelled {s : Section} (hone : s.columns.length ≤ s.storedWidth + 1) (index : Nat)
    {row : Row} (hrow : row.length = s.storedWidth) :
    Section.spliceRow index s.columns row = some (s.spelledRow index row) := by
  rw [Section.storedWidth, Section.storedColumns] at hone hrow
  rw [Section.spelledRow, Section.autoIdIndex?]
  generalize s.columns = columns at hone hrow ⊢
  induction columns generalizing row with
  | nil =>
    rw [List.length_eq_zero_iff.mp hrow]
    rfl
  | cons c cs ih =>
    cases hc : c.type.isStored with
    | true =>
      cases row with
      | nil => simp [hc] at hrow
      | cons v vs =>
        have hne : c.type ≠ .autoId := by simpa [ColumnType.isStored] using hc
        have hrest := ih (by simpa [hc] using hone) (by simpa [hc] using hrow)
        rw [Section.spliceRow, if_pos hc, hrest, List.findIdx?_cons]
        cases cs.findIdx? (·.type = .autoId) <;> simp [hne]
    | false =>
      have heq : c.type = .autoId := by simpa [ColumnType.isStored] using hc
      have hall : ∀ c' ∈ cs, c'.type.isStored = true := by
        rw [← List.length_filter_eq_length_iff]
        have := List.length_filter_le (fun c : Column => c.type.isStored) cs
        simp [hc] at hone
        omega
      have hlength : row.length = cs.length := by
        rw [hrow, List.filter_cons, if_neg (by simp [hc]), List.length_filter_eq_length_iff.mpr hall]
      unfold Section.spliceRow
      rw [if_neg (by simp [hc]), splice_all_stored index hall hlength, List.findIdx?_cons]
      simp [heq]

section Rows
variable {s : Section} (hs : s.Lawful)
include hs

theorem expanded_spelled {index : Nat} {row : Row} (hrow : s.rows[index]? = some row) :
    s.expandedRow? index = some (s.spelledRow index row) := by
  have hwidth := (hs.rows row (List.mem_of_getElem? hrow)).width
  rw [Section.expandedRow?, hrow, Option.bind_some, splice_spelled hs.oneAutoId index hwidth]

/-- What stands under a column: a stored value in its turn, or the number of the row. -/
theorem spelled_at (index : Nat) {row : Row} (hrow : row ∈ s.rows) :
    (s.spelledRow index row).length = s.columns.length ∧
    ∀ (k : Nat) c, s.columns[k]? = some c → (s.spelledRow index row)[k]? =
      if c.type.isStored then row[((s.columns.take k).filter (·.type.isStored)).length]?
      else some (.int (autoIdValue index)) := by
  have hwidth := (hs.rows row hrow).width
  obtain ⟨full, hfull, hspliced⟩ := splice_row index hwidth
  rw [splice_spelled hs.oneAutoId index hwidth] at hfull
  cases hfull
  exact ⟨hspliced.length, fun k c hc => hspliced.at_column hc⟩

theorem stored_lawful {row : Row} (hrow : row ∈ s.rows) {k : Nat} {c : Column} {v : Value}
    (hc : s.storedColumns[k]? = some c) (hv : row[k]? = some v) : v.Lawful (some c.type) :=
  (hs.rows row hrow).cells (c, v)
    (List.mem_of_getElem? (i := k) (List.getElem?_zip_eq_some.mpr ⟨hc, hv⟩))

end Rows

theorem mem_spelled_rows {s : Section} {row : Row} :
    row ∈ s.spelledOut.rows ↔ ∃ index stored, s.rows[index]? = some stored ∧
      row = s.spelledRow index stored := by
  rw [List.mem_iff_getElem?]
  refine exists_congr fun index => ?_
  rw [Section.spelledOut, List.getElem?_mapIdx, Option.map_eq_some_iff]
  simp only [eq_comm]

theorem lawful_scalar_spelled {t : ColumnType} {v : Value} (hv : v.LawfulScalar (some t)) :
    v.LawfulScalar (some t.spelledOut) := by
  cases v with
  | bool b =>
    obtain rfl := hv t rfl
    exact hv
  | int n =>
    rcases hv t rfl with rfl | ⟨rfl, -⟩
    · exact hv
    · rintro _ ⟨⟩
      exact .inl rfl
  | float x =>
    obtain rfl := hv.2 t rfl
    exact hv
  | string s =>
    obtain rfl := hv.2 t rfl
    exact hv
  | array items => cases hv

/-- A value keeps to the rules of its type when that is spelled out. -/
theorem lawful_spelled {t : ColumnType} {v : Value} (hv : v.Lawful (some t)) :
    v.Lawful (some t.spelledOut) := by
  cases hkind : v.isArray with
  | false =>
    exact (Value.lawful_scalar hkind).mpr (lawful_scalar_spelled ((Value.lawful_scalar hkind).mp hv))
  | true =>
    cases v with
    | array items => exact ⟨hv.1, fun item hitem => lawful_scalar_spelled (hv.2 item hitem)⟩
    | _ => cases hkind

theorem scalars_at_ne_nil {s : Section} {k : Nat} :
    s.scalarsAt k ≠ [] ↔ ∃ row ∈ s.rows, ∃ v, row[k]? = some v ∧ v.scalars ≠ [] := by
  rw [Section.scalarsAt]
  constructor
  · intro h
    obtain ⟨w, hw⟩ := List.exists_mem_of_ne_nil _ h
    obtain ⟨v, hv, hw⟩ := List.mem_flatMap.mp hw
    obtain ⟨row, hrow, hv⟩ := List.mem_filterMap.mp hv
    exact ⟨row, hrow, v, hv, List.ne_nil_of_mem hw⟩
  · rintro ⟨row, hrow, v, hv, hne⟩
    obtain ⟨w, hw⟩ := List.exists_mem_of_ne_nil _ hne
    exact List.ne_nil_of_mem (List.mem_flatMap.mpr ⟨v, List.mem_filterMap.mpr ⟨row, hrow, hv⟩, hw⟩)

theorem spelled_names (s : Section) :
    s.spelledOut.columns.map Column.name = s.columns.map Column.name := by
  rw [Section.spelledOut, List.map_map]
  rfl

theorem spelled_column {s : Section} {k : Nat} {c' : Column}
    (hc' : s.spelledOut.columns[k]? = some c') :
    ∃ c, s.columns[k]? = some c ∧ c' = c.spelledOut := by
  rw [Section.spelledOut, List.getElem?_map] at hc'
  obtain ⟨c, hc, rfl⟩ := Option.map_eq_some_iff.mp hc'
  exact ⟨c, hc, rfl⟩

theorem spelled_stored_columns (s : Section) :
    s.spelledOut.storedColumns = s.spelledOut.columns := by
  refine List.filter_eq_self.mpr fun c' hc' => ?_
  obtain ⟨c, -, rfl⟩ := List.mem_map.mp hc'
  exact spelled_stored c.type

section Spelled
variable {s : Section} (hs : s.Lawful)
include hs

theorem spelled_width {row : Row} (hrow : row ∈ s.spelledOut.rows) :
    row.length = s.spelledOut.columns.length := by
  obtain ⟨index, stored, hstored, rfl⟩ := mem_spelled_rows.mp hrow
  rw [(spelled_at hs index (List.mem_of_getElem? hstored)).1, Section.spelledOut, List.length_map]

/-- All that stands under a column keeps to the rules of its type: stored values still do, and numbers of
rows are integers. -/
theorem spelled_cell_lawful {k : Nat} {c' : Column} (hc' : s.spelledOut.columns[k]? = some c')
    {row : Row} (hrow : row ∈ s.spelledOut.rows) {v : Value} (hv : row[k]? = some v) :
    v.Lawful (some c'.type) := by
  obtain ⟨c, hc, rfl⟩ := spelled_column hc'
  obtain ⟨index, stored, hstored, rfl⟩ := mem_spelled_rows.mp hrow
  have hmem := List.mem_of_getElem? hstored
  rw [(spelled_at hs index hmem).2 k c hc] at hv
  split at hv
  · rename_i hkind
    exact lawful_spelled (stored_lawful hs hmem (stored_at hc hkind) hv)
  · rename_i hkind
    have htype : c.type = .autoId := by simpa [ColumnType.isStored] using hkind
    cases hv
    rw [Column.spelledOut, htype]
    rintro _ ⟨⟩
    exact .inl rfl

/-- The numbers of rows are scalars, and stored columns keep theirs. -/
theorem spelled_scalars (hrows : s.rows ≠ [])
    (htold : ∀ (k : Nat) c, s.storedColumns[k]? = some c → c.type ≠ .string → s.scalarsAt k ≠ [])
    {k : Nat} {c' : Column} (hc' : s.spelledOut.columns[k]? = some c') (hne : c'.type ≠ .string) :
    s.spelledOut.scalarsAt k ≠ [] := by
  obtain ⟨c, hc, rfl⟩ := spelled_column hc'
  have hat {index : Nat} {stored : Row} (h : s.rows[index]? = some stored) :=
    (spelled_at hs index (List.mem_of_getElem? h)).2 k c hc
  rw [scalars_at_ne_nil]
  cases hkind : c.type.isStored with
  | true =>
    have hstring : c.type ≠ .string := by
      intro h
      exact hne (by rw [Column.spelledOut, h]; rfl)
    obtain ⟨stored, hstored, v, hv, hscalars⟩ :=
      scalars_at_ne_nil.mp (htold _ c (stored_at hc hkind) hstring)
    obtain ⟨index, hindex⟩ := List.mem_iff_getElem?.mp hstored
    refine ⟨_, mem_spelled_rows.mpr ⟨index, stored, hindex, rfl⟩, v, ?_, hscalars⟩
    rw [hat hindex, if_pos hkind, hv]
  | false =>
    obtain ⟨stored, rest, hfirst⟩ := List.exists_cons_of_ne_nil hrows
    have hindex : s.rows[0]? = some stored := by rw [hfirst]; rfl
    refine ⟨_, mem_spelled_rows.mpr ⟨0, stored, hindex, rfl⟩, .int (autoIdValue 0), ?_,
      List.cons_ne_nil _ _⟩
    rw [hat hindex, hkind, if_neg Bool.false_ne_true]

theorem spelled_section_lawful : s.spelledOut.Lawful := by
  have hstored := spelled_stored_columns s
  have hwidth : s.spelledOut.storedWidth = s.spelledOut.columns.length := by
    rw [Section.storedWidth, hstored]
  have hlength : s.spelledOut.columns.length = s.columns.length := by
    rw [Section.spelledOut, List.length_map]
  constructor
  case named => exact hs.named
  case notReserved => exact hs.notReserved
  case columnsNamed =>
    intro c' hc'
    obtain ⟨c, hc, rfl⟩ := List.mem_map.mp hc'
    exact hs.columnsNamed c hc
  case columnsDiffer =>
    rw [spelled_names]
    exact hs.columnsDiffer
  case stored =>
    have hle : s.storedWidth ≤ s.columns.length := List.length_filter_le _ _
    have hpos := hs.stored
    omega
  case oneAutoId => omega
  case rows =>
    intro row hrow
    refine ⟨by rw [spelled_width hs hrow, hwidth], ?_⟩
    rintro ⟨c, v⟩ hcell
    rw [hstored] at hcell
    obtain ⟨k, hk⟩ := List.mem_iff_getElem?.mp hcell
    obtain ⟨hc, hv⟩ := List.getElem?_zip_eq_some.mp hk
    exact spelled_cell_lawful hs hc hrow hv

end Spelled

/-- Spelling out adds nothing to a row but a number. -/
theorem mem_spelled_row {s : Section} {index : Nat} {row : Row} {v : Value}
    (hv : v ∈ s.spelledRow index row) : v = .int (autoIdValue index) ∨ v ∈ row := by
  rw [Section.spelledRow] at hv
  split at hv
  · exact List.eq_or_mem_of_mem_insertIdx hv
  · exact .inr hv

theorem spelled_floats {d : Document} {x : Number.Double}
    (hx : .float x ∈ d.spelledOut.scalars) : .float x ∈ d.scalars := by
  obtain ⟨v, hv, hmem⟩ := List.mem_flatMap.mp hx
  refine List.mem_flatMap.mpr ⟨v, ?_, hmem⟩
  rcases List.mem_append.mp hv with hv | hv
  · exact List.mem_append_left _ hv
  · refine List.mem_append_right _ ?_
    obtain ⟨t, ht, hcell⟩ := List.mem_flatMap.mp hv
    obtain ⟨s, hs, rfl⟩ := List.mem_map.mp ht
    obtain ⟨row, hrow, hv⟩ := List.mem_flatten.mp hcell
    obtain ⟨index, stored, hstored, rfl⟩ := mem_spelled_rows.mp hrow
    rcases mem_spelled_row hv with rfl | hv
    · cases List.mem_singleton.mp hmem
    · exact List.mem_flatMap.mpr ⟨s, hs,
        List.mem_flatten.mpr ⟨stored, List.mem_of_getElem? hstored, hv⟩⟩

theorem spelled_lawful {d : Document} (hd : d.Lawful) : d.spelledOut.Lawful := by
  have hids : d.spelledOut.sections.map Section.id = d.sections.map Section.id := by
    rw [Document.spelledOut, List.map_map]
    rfl
  refine ⟨hd.context, by rw [hids]; exact hd.sectionsDiffer, fun t ht => ?_⟩
  obtain ⟨s, hs, rfl⟩ := List.mem_map.mp ht
  exact spelled_section_lawful (hd.sections s hs)

end DocForms
