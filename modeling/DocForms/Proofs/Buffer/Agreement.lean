import DocForms.Proofs.Buffer.Soundness
import DocForms.Proofs.Document.Rows

namespace DocForms.Buffer

/-- A section inside a buffer tells what a section of a document does. -/
structure View.Shows (v : View) (w : SectionView) (s : Section) : Prop where
  id : w.id = s.id
  column : ∀ i, v.column? w i = s.columns[i]?
  columnCount : w.columnCount = s.columns.length
  rowCount : w.rowCount = s.rows.length
  storedCell : ∀ row index,
    (v.storedCell? w row index).map v.valueOf = s.rows[row]?.bind fun values => values[index]?
  cell : ∀ row index,
    (v.cell? w row index).map v.valueOf = (s.expandedRow? row).bind fun values => values[index]?
  noCell : ∀ row index, v.cell? w row index = none ↔ s.rows.length ≤ row ∨ s.columns.length ≤ index
  /-- An auto-id column, wherever it stands, counts the rows from one. -/
  number : ∀ row index c, row < s.rows.length → s.columns[index]? = some c → c.type = .autoId →
    ∃ n, v.cell? w row index = some (.int n) ∧ n.toInt = row + 1

/-- A view tells what a document does, whichever way it is asked. -/
structure View.Agrees (v : View) (d : Document) : Prop where
  context : ∀ key, (v.contextGet? key).map v.valueOf = d.context.get? key
  section_ : ∀ i, Option.Rel v.Shows (v.section? i) d.sections[i]?
  found : ∀ id, Option.Rel v.Shows (v.findSection? id) (d.findSection? id)

theorem lookup_map {α β : Type} (f : α → β) (key : String) (es : List (String × α)) :
    (es.map fun e => (e.1, f e.2)).lookup key =
      ((es.find? fun e => e.1 == key).map Prod.snd).map f := by
  induction es with
  | nil => rfl
  | cons e es ih =>
    by_cases h : e.1 = key
    · simp [h]
    · have h' : (key == e.1) = false := by simpa using Ne.symm h
      simp [h, h', List.lookup_cons, ih]

/-- Where two lists correspond, what is found first in one corresponds to what is found first in the
other. -/
theorem rel_find {α β : Type} {R : α → β → Prop} {p : α → Bool} {q : β → Bool} {as : List α}
    {bs : List β} (h : List.Forall₂ R as bs) (hpq : ∀ a b, R a b → p a = q b) :
    Option.Rel R (as.find? p) (bs.find? q) := by
  induction h with
  | nil => exact .none
  | @cons a b as bs hab _ ih =>
    rw [List.find?_cons, List.find?_cons, hpq a b hab]
    cases q b with
    | true => exact .some hab
    | false => exact ih

theorem auto_id_value {row : Nat} (h : row < 2 ^ 32) : (autoIdValue row).toInt = row + 1 := by
  rw [autoIdValue, if_pos (by omega), Int64.toInt_ofNat_of_lt (by omega)]
  rfl

variable {v : View}

theorem row_at (w : SectionView) (row : Nat) :
    (v.tableOf w).rows[row]? = if row < w.rowCount then some (v.rowOf w row) else none := by
  rw [View.tableOf, List.getElem?_map]
  split
  · rename_i hrow
    simp [List.getElem?_range hrow]
  · rename_i hrow
    simpa using hrow

/-- The cell under a column that can be read. -/
theorem cell_under {w : SectionView} {index : Nat} {c : Column} (hc : v.column? w index = some c)
    (row : Nat) : v.cell? w row index =
      if c.type.isStored then
        v.storedCell? w row
          (((List.range index).filterMap (v.column? w)).filter (·.type.isStored)).length
      else if row < w.rowCount then some (.int (autoIdValue row)) else none := by
  rw [View.cell?, hc, some_bind]

section
variable {w : SectionView} (h : v.SectionAt w)
include h

/-- The columns before an index, as a list. -/
theorem columns_before {index : Nat} (hindex : index ≤ w.columnCount) :
    (List.range index).filterMap (v.column? w) = (v.tableOf w).columns.take index := by
  apply List.ext_getElem?
  intro i
  have hsome : ∀ j < index, (v.column? w j).isSome = true := fun j hj => h.column j (by omega)
  have hall : (v.tableOf w).columns[i]? = v.column? w i := filter_map_range_all (column_is_some h) i
  rw [List.getElem?_take, hall]
  split
  · rename_i hi
    exact filter_map_range hsome hi
  · rename_i hi
    rw [List.getElem?_eq_none_iff, length_filter_map_range hsome]
    omega

theorem row_length {row : Nat} (hrow : row < w.rowCount) : (v.rowOf w row).length = w.storedWidth := by
  rw [View.rowOf, List.length_map, length_filter_map_range]
  exact fun i hi => (stored_cell_is_some h row i).mpr ⟨hrow, hi⟩

theorem row_value {row : Nat} (hrow : row < w.rowCount) (index : Nat) :
    (v.rowOf w row)[index]? = (v.storedCell? w row index).map v.valueOf := by
  have hread : ∀ i, (v.storedCell? w row i).isSome = true ↔ i < w.storedWidth := fun i => by
    simp [stored_cell_is_some h, hrow]
  rw [View.rowOf, List.getElem?_map, filter_map_range_all hread]

theorem stored_width_eq : (v.tableOf w).storedWidth = w.storedWidth := by
  rw [← h.width, View.storedTypes, columns_at_eq, List.length_map]
  rfl

theorem no_cell_iff (row index : Nat) :
    v.cell? w row index = none ↔ w.rowCount ≤ row ∨ w.columnCount ≤ index := by
  rw [← Option.not_isSome_iff_eq_none, cell_is_some h]
  omega

/-- What the view reads under a column is what the whole row has there. -/
theorem cell_value_eq (row index : Nat) : (v.cell? w row index).map v.valueOf =
    ((v.tableOf w).expandedRow? row).bind fun values => values[index]? := by
  rw [Section.expandedRow?, row_at]
  split
  · rename_i hrow
    obtain ⟨full, hsplice, hspliced⟩ :=
      splice_row row ((row_length h hrow).trans (stored_width_eq h).symm)
    rw [Option.bind_some, hsplice, Option.bind_some]
    have hcolumns : (v.tableOf w).columns[index]? = v.column? w index :=
      filter_map_range_all (column_is_some h) index
    by_cases hindex : index < w.columnCount
    · obtain ⟨c, hc⟩ := Option.isSome_iff_exists.mp (h.column index hindex)
      rw [hspliced.at_column (hcolumns.trans hc), ← columns_before h hindex.le, cell_under hc,
        if_pos hrow]
      split
      · exact (row_value h hrow _).symm
      · rfl
    · rw [(no_cell_iff h row index).mpr (.inr (by omega)), List.getElem?_eq_none]
      · rfl
      · rw [hspliced.length, View.tableOf, length_filter_map_range h.column]
        omega
  · rename_i hrow
    rw [(no_cell_iff h row index).mpr (.inl (by omega))]
    rfl

theorem stored_value_eq (row index : Nat) : (v.storedCell? w row index).map v.valueOf =
    (v.tableOf w).rows[row]?.bind fun values => values[index]? := by
  rw [row_at]
  split
  · rename_i hrow
    exact (row_value h hrow index).symm
  · rename_i hrow
    have hnone : v.storedCell? w row index = none := by
      rw [← Option.not_isSome_iff_eq_none, stored_cell_is_some h]
      omega
    rw [hnone]
    rfl

theorem section_shows (hcount : w.rowCount < 2 ^ 32) : v.Shows w (v.tableOf w) where
  id := rfl
  column i := (filter_map_range_all (column_is_some h) i).symm
  columnCount := (length_filter_map_range h.column).symm
  rowCount := by simp [View.tableOf]
  storedCell := stored_value_eq h
  cell := cell_value_eq h
  noCell row index := by
    rw [no_cell_iff h, View.tableOf, length_filter_map_range h.column, List.length_map,
      List.length_range]
  number row index c hrow hc hauto := by
    have hrow' : row < w.rowCount := by simpa [View.tableOf] using hrow
    have hcolumn : v.column? w index = some c :=
      (filter_map_range_all (column_is_some h) index).symm.trans hc
    refine ⟨autoIdValue row, ?_, auto_id_value (hrow'.trans hcount)⟩
    have hstored : c.type.isStored = false := by rw [hauto]; rfl
    simp [cell_under hcolumn, hstored, hrow']

end

/-- The number of rows that a section states has four bytes. -/
theorem row_count_lt {i : Nat} {w : SectionView} (h : v.section? i = some w) :
    w.rowCount < 2 ^ 32 := by
  rw [View.section?] at h
  split at h
  · exact number_at_lt (section_at_eq.mp h).2.2.2.2.1
  · cases h

theorem sections_show (h : v.Sound) : List.Forall₂ v.Shows v.sections (v.sections.map v.tableOf) := by
  rw [List.forall₂_map_right_iff, List.forall₂_same]
  intro w hw
  obtain ⟨i, -, hi⟩ := List.mem_filterMap.mp hw
  exact section_shows (section_sound h hi) (row_count_lt hi)

/-- A sound view agrees with a document whose contents it has. -/
theorem view_agrees (h : v.Sound) {d : Document} (hcontext : d.context.entries = v.entries)
    (hsections : d.sections = v.sections.map v.tableOf) : v.Agrees d where
  context key := by
    rw [Fields.get?, hcontext, View.entries, lookup_map, View.contextGet?]
  section_ i := by
    rw [hsections, List.getElem?_map, View.sections, filter_map_range_all (section_is_some h)]
    cases hi : v.section? i with
    | none => exact .none
    | some w => exact .some (section_shows (section_sound h hi) (row_count_lt hi))
  found id := by
    rw [Document.findSection?, hsections, View.findSection?]
    refine rel_find (sections_show h) fun w s hshows => ?_
    rw [hshows.id, beq_eq_decide]

/-- Whatever the fingerprints, the view of a document that was written agrees with the document. -/
theorem written_view_agrees (d : Document) (fingerprintOf : ByteArray → Fingerprint) (b : ByteArray)
    (h : write d fingerprintOf = .ok b) : ∃ v, view b fingerprintOf = .ok v ∧ v.Agrees d := by
  obtain ⟨hvalid, hfits, -⟩ := write_ok.mp h
  have hd := Document.is_valid_iff.mp hvalid
  exact ⟨writtenView d fingerprintOf, view_written h, view_agrees (written_sound hd hfits)
    (written_entries hd hfits).symm (written_sections hd hfits).symm⟩

theorem written_view_agrees_shelf :
    write shelf blank = .ok (bufferOf shelf blank) ∧
      ∃ v, view (bufferOf shelf blank) blank = .ok v ∧ v.Agrees shelf :=
  ⟨write_shelf, written_view_agrees shelf blank (bufferOf shelf blank) write_shelf⟩

end DocForms.Buffer
