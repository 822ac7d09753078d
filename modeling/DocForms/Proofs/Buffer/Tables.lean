import DocForms.Proofs.Buffer.Contents
import DocForms.Proofs.Buffer.Slots

namespace DocForms.Buffer

theorem length_write_column (heapSize : Nat) (c : Column) :
    (writeColumn heapSize c).table.length = columnEntrySize := by
  simp [writeColumn, length_write_text, zeros, columnEntrySize, slotSize]

theorem length_write_items (heapSize : Nat) (row : Row) :
    (writeItems heapSize row).table.length = row.length * slotSize := by
  rw [write_items_eq, length_write_all fun n v _ => length_write_value n v]

theorem length_write_entry (heapSize : Nat) (e : String × Value) :
    (writePair writeText writeValue heapSize e).table.length = contextEntrySize := by
  simp [writePair, Piece.append, length_write_text, length_write_value, contextEntrySize, slotSize]

section
variable {s : Section} (hs : s.Lawful)
include hs

theorem length_write_row (heapSize : Nat) {row : Row} (hrow : row ∈ s.rows) :
    (writeItems heapSize row).table.length = s.storedWidth * slotSize := by
  rw [length_write_items, (hs.rows row hrow).width]

theorem length_rows (heapSize : Nat) :
    (writeAll writeItems heapSize s.rows).table.length = rowsSize s :=
  length_write_all (fun n _ hrow => length_write_row hs n hrow) heapSize

end

theorem length_columns (heapSize : Nat) (s : Section) :
    (writeAll writeColumn heapSize s.columns).table.length = columnsSize s :=
  length_write_all (fun n c _ => length_write_column n c) heapSize

theorem length_entry (heapSize columnsStart rowsStart : Nat) (s : Section) :
    (writeSection heapSize columnsStart rowsStart s).entry.table.length = sectionEntrySize := by
  simp [writeSection, writeNumbers, length_write_text, length_bytes_of, sectionEntrySize, slotSize]

variable {v : View} {position heapSize : Nat}

theorem read_number {b : ByteArray} {position : Nat} {numbers : List Nat}
    (h : Holds b position (writeNumbers numbers).table) {i n : Nat} (hn : numbers[i]? = some n)
    (hfits : n ≤ longLimit) : numberAt? b (position + i * 4) 4 = some n := by
  induction numbers generalizing position i with
  | nil => cases hn
  | cons m rest ih =>
    cases i with
    | zero =>
      cases hn
      rw [Nat.zero_mul]
      exact h.left.number (long_lt hfits)
    | succ i =>
      have hrest : Holds b (position + (bytesOf 4 m).length) (writeNumbers rest).table := h.right
      rw [length_bytes_of] at hrest
      rw [Nat.succ_mul, Nat.add_comm (i * 4), ← Nat.add_assoc]
      exact ih hrest hn

theorem type_of_code (t : ColumnType) : ColumnType.ofCode? t.code = some t := by
  cases t <;> rfl

theorem read_column {c : Column}
    (h : Placed v.buffer v.heapStart position heapSize (writeColumn heapSize c)) :
    v.columnAt? position = some c := by
  have hname : v.name? position = some c.name := read_name ⟨h.table.left, h.heap, h.fits⟩
  have hcode := h.table.right.first
  rw [length_write_text] at hcode
  simp [View.columnAt?, hname, hcode, type_of_code]

theorem read_context_entry {e : String × Value} (he : e.2.Lawful none)
    (h : Placed v.buffer v.heapStart position heapSize (writePair writeText writeValue heapSize e)) :
    ∃ item, v.name? position = some e.1 ∧ v.Stores none (position + slotSize) e.2 item := by
  have hvalue := h.second
  rw [length_write_text] at hvalue
  obtain ⟨item, hitem⟩ := read_value he hvalue
  exact ⟨item, read_name h.first, hitem⟩

/-- The view of a section whose tables start at the given places. -/
def viewOf (columnsStart rowsStart : Nat) (s : Section) : SectionView :=
  ⟨s.id, columnsStart, s.columns.length, rowsStart, s.rows.length, s.storedWidth⟩

/-- A section as it is found in a buffer. -/
structure SectionPlaced (b : ByteArray) (heapStart position heapSize columnsStart rowsStart : Nat)
    (s : Section) : Prop where
  entry : Placed b heapStart position heapSize (writeSection heapSize columnsStart rowsStart s).entry
  columns : Holds b columnsStart (writeSection heapSize columnsStart rowsStart s).columns
  rows : Holds b rowsStart (writeSection heapSize columnsStart rowsStart s).rows

section
variable {columnsStart rowsStart : Nat} {s : Section}
  (h : SectionPlaced v.buffer v.heapStart position heapSize columnsStart rowsStart s)
include h

theorem SectionPlaced.name : v.name? position = some s.id := by
  refine read_name ⟨h.entry.table.left, h.entry.heap.left.left, fun n hn => h.entry.fits n ?_⟩
  simp only [writeSection, List.mem_append]
  exact .inl (.inl (.inl hn))

theorem SectionPlaced.number {i n : Nat}
    (hn : [columnsStart, s.columns.length, rowsStart, s.rows.length][i]? = some n) :
    numberAt? v.buffer (position + slotSize + i * 4) 4 = some n := by
  have hnumbers := h.entry.table.right
  rw [length_write_text] at hnumbers
  refine read_number hnumbers hn (h.entry.fits ⟨longLimit, n⟩ ?_)
  simp only [writeSection, List.mem_append]
  exact .inl (.inl (.inr (List.mem_map_of_mem (List.mem_of_getElem? hn))))

theorem SectionPlaced.columnTable : ∃ heapSize,
    Placed v.buffer v.heapStart columnsStart heapSize (writeAll writeColumn heapSize s.columns) := by
  refine ⟨_, h.columns, ?_, fun n hn => h.entry.fits n ?_⟩
  · rw [← Nat.add_assoc]
    exact h.entry.heap.left.right
  · simp only [writeSection, List.mem_append]
    exact .inl (.inr hn)

theorem SectionPlaced.rowTable : ∃ heapSize,
    Placed v.buffer v.heapStart rowsStart heapSize (writeAll writeItems heapSize s.rows) := by
  refine ⟨_, h.rows, ?_, fun n hn => h.entry.fits n ?_⟩
  · have hheap := h.entry.heap.right
    rw [List.length_append, Nat.add_assoc, ← Nat.add_assoc heapSize] at hheap
    exact hheap
  · simp only [writeSection, List.mem_append]
    exact .inr hn

theorem SectionPlaced.column {i : Nat} {c : Column} (hc : s.columns[i]? = some c) :
    v.column? (viewOf columnsStart rowsStart s) i = some c := by
  obtain ⟨n, htable⟩ := h.columnTable
  obtain ⟨n', hpart⟩ := htable.part (fun n c _ => length_write_column n c) hc
  have hi : i < s.columns.length := (List.getElem?_eq_some_iff.mp hc).1
  rw [View.column?, viewOf, if_pos hi]
  exact read_column hpart

theorem SectionPlaced.columnsAt : v.columnsAt columnsStart s.columns.length = s.columns := by
  have hcolumns := columns_at_eq v (viewOf columnsStart rowsStart s)
  rw [viewOf] at hcolumns
  rw [hcolumns]
  exact filter_map_range_eq fun i c hc => h.column hc

theorem SectionPlaced.storedTypes :
    v.storedTypes (viewOf columnsStart rowsStart s) = s.storedColumns.map Column.type := by
  rw [View.storedTypes, viewOf, h.columnsAt]
  rfl

theorem SectionPlaced.view : v.sectionAt? position = some (viewOf columnsStart rowsStart s) := by
  exact section_at_eq.mpr ⟨h.name, h.number (i := 0) rfl, h.number (i := 1) rfl,
    h.number (i := 2) rfl, h.number (i := 3) rfl, by rw [h.storedTypes, List.length_map]; rfl⟩

/-- The value of a row under a stored column, in the slot that the reader computes for it. -/
theorem SectionPlaced.cell (hs : s.Lawful) {row index : Nat} {r : Row} {value : Value}
    (hr : s.rows[row]? = some r) (hvalue : r[index]? = some value) :
    ∃ t item, (s.storedColumns.map Column.type)[index]? = some t ∧
      v.Stores (some t) (rowsStart + (row * s.storedWidth + index) * slotSize) value item := by
  have hrow : s.LawfulRow r := hs.rows r (List.mem_of_getElem? hr)
  have hindex : index < s.storedColumns.length := by
    have hlt := (List.getElem?_eq_some_iff.mp hvalue).1
    rwa [hrow.width] at hlt
  have hcolumn := List.getElem?_eq_getElem hindex
  have hmem : (s.storedColumns[index], value) ∈ s.storedColumns.zip r := by
    apply List.mem_of_getElem? (i := index)
    rw [List.getElem?_zip_eq_some]
    exact ⟨hcolumn, hvalue⟩
  obtain ⟨n, htable⟩ := h.rowTable
  obtain ⟨n', hpart⟩ := htable.part (fun n _ hmem => length_write_row hs n hmem) hr
  rw [write_items_eq] at hpart
  obtain ⟨n'', hslot⟩ := hpart.part (fun n w _ => length_write_value n w) hvalue
  obtain ⟨item, hitem⟩ := read_value (hrow.cells _ hmem) hslot
  refine ⟨s.storedColumns[index].type, item, by rw [List.getElem?_map, hcolumn]; rfl, ?_⟩
  rwa [Nat.add_mul, Nat.mul_assoc, ← Nat.add_assoc]

theorem SectionPlaced.row (hs : s.Lawful) {row : Nat} {r : Row} (hr : s.rows[row]? = some r) :
    v.rowOf (viewOf columnsStart rowsStart s) row = r := by
  have hrow : s.LawfulRow r := hs.rows r (List.mem_of_getElem? hr)
  rw [View.rowOf, viewOf, ← hrow.width]
  refine map_filter_map_range_eq fun index value hvalue => ?_
  obtain ⟨t, item, _, hitem⟩ := h.cell hs hr hvalue
  refine ⟨item, ?_, hitem.value⟩
  have hindex : index < s.storedWidth := by
    have hlt := (List.getElem?_eq_some_iff.mp hvalue).1
    rwa [hrow.width] at hlt
  rw [View.storedCell?, if_pos ⟨(List.getElem?_eq_some_iff.mp hr).1, hrow.width ▸ hindex⟩, hrow.width]
  exact hitem.slot

/-- The section that the view gives is the one that was written. -/
theorem SectionPlaced.table (hs : s.Lawful) :
    v.tableOf (viewOf columnsStart rowsStart s) = s := by
  have hcolumns : (List.range s.columns.length).filterMap
      (v.column? (viewOf columnsStart rowsStart s)) = s.columns :=
    filter_map_range_eq fun _ _ hc => h.column hc
  have hrows : (List.range s.rows.length).map (v.rowOf (viewOf columnsStart rowsStart s)) = s.rows :=
    map_range_eq fun _ _ hr => h.row hs hr
  rw [View.tableOf]
  simp only [viewOf] at hcolumns hrows ⊢
  rw [hcolumns, hrows]

theorem SectionPlaced.sound (hs : s.Lawful)
    (hcolumns : v.TableAt columnsStart s.columns.length columnEntrySize)
    (hrows : v.TableAt rowsStart s.rows.length (s.storedWidth * slotSize)) :
    v.SectionAt (viewOf columnsStart rowsStart s) := by
  refine ⟨hcolumns, fun i hi => ?_, (section_at_eq.mp h.view).2.2.2.2.2, hrows, fun i hi => ?_⟩
  · rw [h.column (List.getElem?_eq_getElem hi)]
    rfl
  · have hwidth : 0 < s.storedWidth := Nat.pos_of_ne_zero hs.stored
    have hrow : i / s.storedWidth < s.rows.length := Nat.div_lt_of_lt_mul (by rwa [Nat.mul_comm])
    have hr := List.getElem?_eq_getElem hrow
    have hindex : i % s.storedWidth < (s.rows[i / s.storedWidth]).length := by
      rw [(hs.rows _ (List.mem_of_getElem? hr)).width]
      exact Nat.mod_lt i hwidth
    obtain ⟨t, item, ht, hitem⟩ := h.cell hs hr (List.getElem?_eq_getElem hindex)
    rw [Nat.mul_comm (i / s.storedWidth), Nat.div_add_mod] at hitem
    rw [h.storedTypes]
    exact ⟨t, ht, item, hitem.slot, hitem.fits⟩

end

theorem le_place_after (size : Section → Nat) (start : Nat) (ss : List Section) :
    start ≤ placeAfter size start ss := by
  induction ss generalizing start with
  | nil => exact Nat.le_refl start
  | cons s rest ih => exact Nat.le_trans (Nat.le_add_right _ _) (ih (start + size s))

/-- Sections written one after another are found one after another, their tables within the space set
apart for them. -/
theorem sections_placed {b : ByteArray} {heapStart columnsStart rowsStart : Nat}
    {position heapSize : Nat} {ss : List Section} (hss : ∀ s ∈ ss, s.Lawful)
    (hentries : Placed b heapStart position heapSize
      (.concat ((writeSections heapSize columnsStart rowsStart ss).map SectionPiece.entry)))
    (hcolumns : Holds b columnsStart
      ((writeSections heapSize columnsStart rowsStart ss).flatMap SectionPiece.columns))
    (hrows : Holds b rowsStart
      ((writeSections heapSize columnsStart rowsStart ss).flatMap SectionPiece.rows))
    {i : Nat} {s : Section} (hi : ss[i]? = some s) :
    ∃ heapSize' columnsStart' rowsStart',
      SectionPlaced b heapStart (position + i * sectionEntrySize) heapSize' columnsStart' rowsStart' s ∧
      columnsStart ≤ columnsStart' ∧
      columnsStart' + columnsSize s ≤ placeAfter columnsSize columnsStart ss ∧
      rowsStart ≤ rowsStart' ∧
      rowsStart' + rowsSize s ≤ placeAfter rowsSize rowsStart ss := by
  induction ss generalizing position heapSize columnsStart rowsStart i with
  | nil => cases hi
  | cons s' rest ih =>
    have hs' : s'.Lawful := hss s' (by simp)
    cases i with
    | zero =>
      cases hi
      exact ⟨heapSize, columnsStart, rowsStart,
        ⟨by simpa using hentries.first, hcolumns.left, hrows.left⟩, Nat.le_refl _,
        le_place_after _ _ rest, Nat.le_refl _, le_place_after _ _ rest⟩
    | succ i =>
      have hentries' := hentries.second
      have hcolumns' := hcolumns.right
      have hrows' := hrows.right
      rw [length_entry] at hentries'
      rw [writeSection, length_columns] at hcolumns'
      rw [writeSection, length_rows hs'] at hrows'
      obtain ⟨n, c, r, hplaced, hcolumnsFirst, hcolumnsLast, hrowsFirst, hrowsLast⟩ :=
        ih (fun t ht => hss t (List.mem_cons_of_mem _ ht)) hentries' hcolumns' hrows' hi
      refine ⟨n, c, r, ?_, by omega, hcolumnsLast, by omega, hrowsLast⟩
      rwa [Nat.add_assoc, Nat.add_comm sectionEntrySize, ← Nat.succ_mul] at hplaced

end DocForms.Buffer
