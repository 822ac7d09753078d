import DocForms.Proofs.Buffer.Bounds
import DocForms.Proofs.Ranges

namespace DocForms.Buffer

theorem guarded_is_some {α : Type} {p : Prop} [Decidable p] {a? : Option α}
    (h : p → a?.isSome = true) : (if p then a? else none).isSome = true ↔ p := by
  by_cases hp : p <;> simp [hp, h]

/-- The number of items that an item gives access to. -/
def Item.count : Item → Nat
  | .array _ count => count
  | _ => 0

/-- An item whose items can be read, and are scalars. -/
structure View.Whole (v : View) (item : Item) : Prop where
  read : ∀ i, (v.itemAt? item i).isSome = true ↔ i < item.count
  scalar : ∀ i e, v.itemAt? item i = some e → e.isArray = false

variable {v : View}

theorem item_at_scalar {item : Item} (h : item.isArray = false) (i : Nat) :
    v.itemAt? item i = none := by
  cases item with
  | array start count => cases h
  | _ => rfl

theorem whole_scalar {item : Item} (h : item.isArray = false) : v.Whole item := by
  refine ⟨fun i => ?_, fun i e he => ?_⟩
  · rw [item_at_scalar h]
    cases item with
    | array start count => cases h
    | _ => simp [Item.count]
  · rw [item_at_scalar h] at he
    cases he

theorem fits_not_array {type? : Option ColumnType} {item : Item} (h : fits type? item = true) :
    item.isArray = false := by
  cases item with
  | array start count =>
    cases type? with
    | none => cases h
    | some t => cases t <;> cases h
  | _ => rfl

theorem fits_all_whole {type? : Option ColumnType} {item : Item} (h : fitsAll v type? item = true) :
    v.Whole item := by
  cases item with
  | array start count =>
    simp only [fitsAll, List.all_eq_true, List.mem_range, Option.any_eq_true] at h
    have hread : ∀ i, (v.itemAt? (.array start count) i).isSome = true ↔ i < count := by
      intro i
      refine guarded_is_some fun hi => ?_
      obtain ⟨e, he, _⟩ := h i hi
      rw [Item.get?, if_pos hi] at he
      rw [he]
      rfl
    refine ⟨hread, fun i e he => ?_⟩
    obtain ⟨e', he', hfits⟩ := h i ((hread i).mp (by rw [he]; rfl))
    obtain rfl : e = e' := Option.some.inj (he.symm.trans he')
    exact fits_not_array hfits
  | _ => exact whole_scalar (fits_not_array h)

theorem scalar_of_not_array {item : Item} (h : item.isArray = false) :
    item.scalar?.isSome = true := by
  cases item with
  | array start count => cases h
  | _ => rfl

/-- An array is read with as many values as it has items. -/
theorem View.Whole.values {start count : Nat} (h : v.Whole (.array start count)) :
    ∃ vs : List Value, v.valueOf (.array start count) = .array vs ∧ vs.length = count := by
  refine ⟨_, rfl, length_filter_map_range fun i hi => ?_⟩
  obtain ⟨e, he⟩ := Option.isSome_iff_exists.mp ((h.read i).mpr hi)
  have hget : Item.get? v.buffer v.heapStart (.array start count) i = some e := he
  rw [hget]
  exact scalar_of_not_array (h.scalar i e he)

theorem context_entry_eq {i : Nat} {key : String} {item : Item} (hi : i < v.contextSize)
    (hkey : v.name? (v.contextStart + i * contextEntrySize) = some key)
    (hitem : v.slot? (v.contextStart + i * contextEntrySize + slotSize) = some item) :
    v.contextEntry? i = some (key, item) := by
  unfold View.contextEntry?
  rw [if_pos hi]
  simp only [hkey, hitem]
  rfl

theorem context_entry_cases (h : v.Sound) {i : Nat} (hi : i < v.contextSize) :
    ∃ key item, v.contextEntry? i = some (key, item) ∧ v.Whole item := by
  have hentry := h.entry i hi
  obtain ⟨key, hkey⟩ := Option.isSome_iff_exists.mp hentry.key
  obtain ⟨item, hitem, hfits⟩ := hentry.value
  exact ⟨key, item, context_entry_eq hi hkey hitem, fits_all_whole hfits⟩

theorem context_entry_is_some (h : v.Sound) (i : Nat) :
    ( v.contextEntry? i).isSome = true ↔ i < v.contextSize := by
  refine guarded_is_some fun hi => ?_
  obtain ⟨key, item, hentry, _⟩ := context_entry_cases h hi
  unfold View.contextEntry? at hentry
  rw [if_pos hi] at hentry
  rw [hentry]
  rfl

theorem section_is_some (h : v.Sound) (i : Nat) :
    (v.section? i).isSome = true ↔ i < v.sectionCount := by
  refine guarded_is_some fun hi => ?_
  obtain ⟨s, hs, _⟩ := h.section_ i hi
  rw [hs]
  rfl

theorem section_sound (h : v.Sound) {i : Nat} {s : SectionView} (hs : v.section? i = some s) :
    v.SectionAt s := by
  have hi : i < v.sectionCount := (section_is_some h i).mp (by rw [hs]; rfl)
  obtain ⟨t, ht, hsound⟩ := h.section_ i hi
  rw [View.section?, if_pos hi, ht] at hs
  cases hs
  exact hsound

section
variable {s : SectionView}

theorem column_is_some (h : v.SectionAt s) (i : Nat) :
    (v.column? s i).isSome = true ↔ i < s.columnCount := by
  refine guarded_is_some fun hi => ?_
  have hcolumn := h.column i hi
  rwa [View.column?, if_pos hi] at hcolumn

theorem stored_cell_cases (h : v.SectionAt s) {row index : Nat} (hrow : row < s.rowCount)
    (hindex : index < s.storedWidth) : ∃ item, v.storedCell? s row index = some item ∧
      v.Whole item := by
  have hcell : row * s.storedWidth + index < s.rowCount * s.storedWidth := by
    have hstep := Nat.mul_le_mul_right s.storedWidth (Nat.succ_le_of_lt hrow)
    rw [Nat.succ_mul] at hstep
    omega
  obtain ⟨t, _, item, hitem, hfits⟩ := h.cell _ hcell
  refine ⟨item, ?_, fits_all_whole hfits⟩
  rw [View.storedCell?, if_pos ⟨hrow, hindex⟩, hitem]

theorem stored_cell_is_some (h : v.SectionAt s) (row index : Nat) :
    (v.storedCell? s row index).isSome = true ↔ row < s.rowCount ∧ index < s.storedWidth := by
  refine guarded_is_some fun hcell => ?_
  obtain ⟨item, hitem, _⟩ := stored_cell_cases h hcell.1 hcell.2
  rw [View.storedCell?, if_pos hcell] at hitem
  rw [hitem]
  rfl

theorem columns_at_eq (v : View) (s : SectionView) :
    v.columnsAt s.columnsStart s.columnCount =
      (List.range s.columnCount).filterMap (v.column? s) := by
  rw [View.columnsAt, places, List.filterMap_map]
  apply List.filterMap_congr
  intro i hi
  rw [View.column?, if_pos (List.mem_range.mp hi)]
  rfl

/-- A stored column comes after fewer stored columns than there are. -/
theorem stored_before_lt (h : v.SectionAt s) {index : Nat} {c : Column}
    (hc : v.column? s index = some c) (hstored : c.type.isStored = true) :
    (((List.range index).filterMap (v.column? s)).filter (·.type.isStored)).length <
      s.storedWidth := by
  have hindex : index < s.columnCount := (column_is_some h index).mp (by rw [hc]; rfl)
  obtain ⟨k, hk⟩ := Nat.exists_eq_add_of_lt hindex
  have hrange : List.range s.columnCount =
      List.range index ++ index :: (List.range k).map fun i => index + 1 + i := by
    rw [hk, Nat.add_right_comm, List.range_add, List.range_succ, List.append_assoc]
    rfl
  rw [← h.width, View.storedTypes, List.length_map, columns_at_eq, hrange, List.filterMap_append,
    List.filter_append, List.length_append, List.filterMap_cons_some hc]
  simp only [List.filter_cons, hstored, if_true, List.length_cons]
  omega

/-- A cell can be read under every column, stored or not. -/
theorem cell_cases (h : v.SectionAt s) {row index : Nat} (hrow : row < s.rowCount)
    (hindex : index < s.columnCount) : ∃ item, v.cell? s row index = some item ∧ v.Whole item := by
  obtain ⟨c, hc⟩ := Option.isSome_iff_exists.mp (h.column index hindex)
  cases hstored : c.type.isStored with
  | true =>
    obtain ⟨item, hitem, hwhole⟩ := stored_cell_cases h hrow (stored_before_lt h hc hstored)
    exact ⟨item, by simp [View.cell?, hc, hstored, hitem], hwhole⟩
  | false =>
    exact ⟨.int (autoIdValue row), by simp [View.cell?, hc, hstored, hrow], whole_scalar rfl⟩

theorem cell_is_some (h : v.SectionAt s) (row index : Nat) :
    (v.cell? s row index).isSome = true ↔ row < s.rowCount ∧ index < s.columnCount := by
  constructor
  · intro hcell
    obtain ⟨item, hitem⟩ := Option.isSome_iff_exists.mp hcell
    obtain ⟨c, hc, hitem⟩ := Option.bind_eq_some_iff.mp hitem
    have hindex : index < s.columnCount := (column_is_some h index).mp (by rw [hc]; rfl)
    cases hstored : c.type.isStored with
    | true =>
      rw [hstored, if_pos rfl] at hitem
      exact ⟨((stored_cell_is_some h row _).mp (by rw [hitem]; rfl)).1, hindex⟩
    | false =>
      by_cases hrow : row < s.rowCount
      · exact ⟨hrow, hindex⟩
      · simp [hstored, hrow] at hitem
  · rintro ⟨hrow, hindex⟩
    obtain ⟨item, hitem, _⟩ := cell_cases h hrow hindex
    rw [hitem]
    rfl

end
end DocForms.Buffer
