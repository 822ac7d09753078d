import DocForms.Proofs.Buffer.RoundTrip

namespace DocForms.Buffer

/-- An item that a view gives out. -/
inductive View.Offers (v : View) : Item → Prop
  | entry {i : Nat} {key : String} {item : Item} (h : v.contextEntry? i = some (key, item)) :
    v.Offers item
  | found {key : String} {item : Item} (h : v.contextGet? key = some item) : v.Offers item
  | storedCell {i row index : Nat} {s : SectionView} {item : Item} (hs : v.section? i = some s)
    (h : v.storedCell? s row index = some item) : v.Offers item
  | cell {i row index : Nat} {s : SectionView} {item : Item} (hs : v.section? i = some s)
    (h : v.cell? s row index = some item) : v.Offers item

variable {v : View}

theorem whole_of_found {a? : Option Item} (h : ∃ item, a? = some item ∧ v.Whole item) {item : Item}
    (hitem : a? = some item) : v.Whole item := by
  obtain ⟨item', hitem', hwhole⟩ := h
  rw [hitem] at hitem'
  cases hitem'
  exact hwhole

theorem context_entry_whole (h : v.Sound) {i : Nat} {e : String × Item}
    (he : v.contextEntry? i = some e) : v.Whole e.2 := by
  have hi : i < v.contextSize := (context_entry_is_some h i).mp (by rw [he]; rfl)
  obtain ⟨key, item, hentry, hwhole⟩ := context_entry_cases h hi
  rw [he] at hentry
  cases hentry
  exact hwhole

theorem View.Offers.whole (h : v.Sound) {item : Item} (hitem : v.Offers item) : v.Whole item := by
  cases hitem with
  | entry hentry => exact context_entry_whole h hentry
  | found hget =>
    obtain ⟨e, hfind, rfl⟩ := Option.map_eq_some_iff.mp hget
    obtain ⟨i, _, he⟩ := List.mem_filterMap.mp (List.mem_of_find?_eq_some hfind)
    exact context_entry_whole h he
  | @storedCell i row index s item hs hcell =>
    have hsound := section_sound h hs
    obtain ⟨hrow, hindex⟩ := (stored_cell_is_some hsound row index).mp (by rw [hcell]; rfl)
    exact whole_of_found (stored_cell_cases hsound hrow hindex) hcell
  | @cell i row index s item hs hcell =>
    have hsound := section_sound h hs
    obtain ⟨hrow, hindex⟩ := (cell_is_some hsound row index).mp (by rw [hcell]; rfl)
    exact whole_of_found (cell_cases hsound hrow hindex) hcell

theorem slot_room {position : Nat} {item : Item} (h : v.slot? position = some item) :
    position + slotSize ≤ v.buffer.size := by
  obtain ⟨slot, hslot, _⟩ := Option.bind_eq_some_iff.mp h
  exact slice_is_some.mp (by rw [hslot]; rfl)

/-- The places that a view computes for what is in its counts lie in the buffer, whose size has four
bytes, so no sum or product on the way to them overflows. -/
structure View.InPlace (v : View) : Prop where
  size : v.buffer.size < 2 ^ 32
  entryPlace : ∀ i < v.contextSize,
    v.contextStart + i * contextEntrySize + contextEntrySize ≤ v.buffer.size
  sectionPlace : ∀ i < v.sectionCount,
    v.sectionsStart + i * sectionEntrySize + sectionEntrySize ≤ v.buffer.size
  columnPlace : ∀ i s, v.section? i = some s → ∀ index < s.columnCount,
    s.columnsStart + index * columnEntrySize + columnEntrySize ≤ v.buffer.size
  cellPlace : ∀ i s, v.section? i = some s → ∀ row < s.rowCount, ∀ index < s.storedWidth,
    s.rowsStart + (row * s.storedWidth + index) * slotSize + slotSize ≤ v.buffer.size
  itemPlace : ∀ start count, v.Offers (.array start count) → ∀ i < count,
    start + i * slotSize + slotSize ≤ v.buffer.size

theorem View.Heads.inPlace {fingerprintOf : ByteArray → Fingerprint} (hheads : v.Heads fingerprintOf)
    (h : v.Sound) : v.InPlace where
  size := number_at_lt hheads.size
  entryPlace _ hi := Nat.le_trans (h.contextTable.inside hi) hheads.heap.2
  sectionPlace _ hi := Nat.le_trans (h.sectionTable.inside hi) hheads.heap.2
  columnPlace _ _ hs _ hindex :=
    Nat.le_trans ((section_sound h hs).columns.inside hindex) hheads.heap.2
  cellPlace _ s hs row hrow index hindex := by
    obtain ⟨item, hcell, _⟩ := stored_cell_cases (section_sound h hs) hrow hindex
    rw [View.storedCell?, if_pos ⟨hrow, hindex⟩] at hcell
    exact slot_room hcell
  itemPlace start count hitem i hi := by
    obtain ⟨e, he⟩ := Option.isSome_iff_exists.mp (((hitem.whole h).read i).mpr hi)
    rw [View.itemAt?, Item.get?, if_pos hi] at he
    exact slot_room he

/-- A view that gives access to all that it counts, and whose document has as much. -/
structure View.Complete (v : View) : Prop extends v.InPlace where
  entry : ∀ i, ( v.contextEntry? i).isSome = true ↔ i < v.contextSize
  section_ : ∀ i, (v.section? i).isSome = true ↔ i < v.sectionCount
  column : ∀ i s, v.section? i = some s →
    ∀ index, (v.column? s index).isSome = true ↔ index < s.columnCount
  storedCell : ∀ i s, v.section? i = some s →
    ∀ row index, (v.storedCell? s row index).isSome = true ↔
      row < s.rowCount ∧ index < s.storedWidth
  cell : ∀ i s, v.section? i = some s →
    ∀ row index, (v.cell? s row index).isSome = true ↔ row < s.rowCount ∧ index < s.columnCount
  item : ∀ start count, v.Offers (.array start count) →
    ∀ i, (v.itemAt? (.array start count) i).isSome = true ↔ i < count
  scalarItem : ∀ item, v.Offers item → ∀ i e, v.itemAt? item i = some e → e.isArray = false
  /-- Lists of entries, sections, columns and items leave nothing out. -/
  context : ∀ i, v.context[i]? = v.contextEntry? i
  sections : ∀ i, v.sections[i]? = v.section? i
  columns : ∀ i s, v.section? i = some s →
    ∀ index, (v.columnsAt s.columnsStart s.columnCount)[index]? = v.column? s index
  items : ∀ start count, v.Offers (.array start count) →
    ∃ vs : List Value, v.valueOf (.array start count) = .array vs ∧ vs.length = count
  documentContext : ∀ d, v.document = .ok d → d.context.size = v.contextSize
  documentSections : ∀ d, v.document = .ok d → d.sections.length = v.sectionCount
  documentSection : ∀ d, v.document = .ok d → ∀ i s t, v.section? i = some s →
    d.sections[i]? = some t → t.columns.length = s.columnCount ∧ t.rows.length = s.rowCount
  rowsReadable : ∀ row id, v.document ≠ .error (.integrity (.unreadableRow row id))

theorem View.Heads.complete {fingerprintOf : ByteArray → Fingerprint}
    (hheads : v.Heads fingerprintOf) (h : v.Sound) : v.Complete where
  toInPlace := hheads.inPlace h
  entry := context_entry_is_some h
  section_ := section_is_some h
  column _ _ hs := column_is_some (section_sound h hs)
  storedCell _ _ hs := stored_cell_is_some (section_sound h hs)
  cell _ _ hs := cell_is_some (section_sound h hs)
  item _ _ hitem := (hitem.whole h).read
  scalarItem _ hitem := (hitem.whole h).scalar
  context := filter_map_range_all (context_entry_is_some h)
  sections := filter_map_range_all (section_is_some h)
  columns _ s hs := by
    rw [columns_at_eq]
    exact filter_map_range_all (column_is_some (section_sound h hs))
  items _ _ hitem := (hitem.whole h).values
  documentContext d hd := by
    obtain ⟨hcontext, _⟩ := (read_document_ok h).mp (map_error_eq_ok.mp hd)
    rw [Fields.size, hcontext, View.entries, List.length_map]
    exact length_filter_map_range fun i => (context_entry_is_some h i).mpr
  documentSections d hd := by
    obtain ⟨_, hsections, _⟩ := (read_document_ok h).mp (map_error_eq_ok.mp hd)
    rw [hsections, List.length_map]
    exact length_filter_map_range fun i => (section_is_some h i).mpr
  documentSection d hd i s t hs ht := by
    obtain ⟨_, hsections, _⟩ := (read_document_ok h).mp (map_error_eq_ok.mp hd)
    have hsection : v.sections[i]? = some s := by
      rw [View.sections, filter_map_range_all (section_is_some h), hs]
    rw [hsections, List.getElem?_map, hsection] at ht
    cases ht
    refine ⟨length_filter_map_range (section_sound h hs).column, ?_⟩
    rw [View.tableOf, List.length_map, List.length_range]
  rowsReadable row id hrow := by
    cases hread : readDocument v with
    | ok d =>
      rw [View.document, hread] at hrow
      cases hrow
    | error fault =>
      rw [View.document, hread] at hrow
      cases hrow
      rcases read_document_error h hread with ⟨key, hkey⟩ | ⟨x, hx⟩
      · cases hkey
      · cases hx

/-- Any bytes may be checked: no check reads past their end, and a view of them that is given out is
complete. -/
theorem view_sound (b : ByteArray) (fingerprintOf : ByteArray → Fingerprint) :
    (∀ fault, view b fingerprintOf = .error (.integrity fault) → fault.isPastEnd = false) ∧
      ∀ v, view b fingerprintOf = .ok v → v.Complete := by
  constructor
  · intro fault hfault
    cases hview : view? b fingerprintOf with
    | ok v =>
      rw [view, hview] at hfault
      cases hfault
    | error fault' =>
      rw [view, hview] at hfault
      cases hfault
      exact view_inside b fingerprintOf fault hview
  · intro v hv
    obtain ⟨_, hheads, hsound⟩ := view_ok.mp hv
    exact hheads.complete hsound

theorem view_sound_shelf :
    ∃ v, view (bufferOf shelf blank) blank = .ok v ∧ v.Complete :=
  ⟨writtenView shelf blank, view_written write_shelf,
    (view_sound (bufferOf shelf blank) blank).2 _ (view_written write_shelf)⟩

end DocForms.Buffer
