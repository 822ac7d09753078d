import Mathlib.Data.List.Basic

namespace DocForms

/-- What is read at each index of a range, when nothing is missing. -/
theorem filter_map_range {α : Type} {read : Nat → Option α} {n : Nat}
    (h : ∀ i < n, (read i).isSome = true) {i : Nat} (hi : i < n) :
    ((List.range n).filterMap read)[i]? = read i := by
  induction n with
  | zero => omega
  | succ n ih =>
    have hbefore : ∀ j < n, (read j).isSome = true := fun j hj => h j (by omega)
    have hlength : ((List.range n).filterMap read).length = n := by
      rw [List.filterMap_length_eq_length.mpr (by simpa using hbefore), List.length_range]
    rw [List.range_succ, List.filterMap_append]
    by_cases hlt : i < n
    · rw [List.getElem?_append_left (by omega), ih hbefore hlt]
    · obtain rfl : i = n := by omega
      obtain ⟨a, ha⟩ := Option.isSome_iff_exists.mp (h i hi)
      rw [List.getElem?_append_right (by omega)]
      simp [hlength, ha]

theorem length_filter_map_range {α : Type} {read : Nat → Option α} {n : Nat}
    (h : ∀ i < n, (read i).isSome = true) : ((List.range n).filterMap read).length = n := by
  rw [List.filterMap_length_eq_length.mpr (by simpa using h), List.length_range]

theorem filter_map_range_all {α : Type} {read : Nat → Option α} {n : Nat}
    (h : ∀ i, (read i).isSome = true ↔ i < n) (i : Nat) :
    ((List.range n).filterMap read)[i]? = read i := by
  by_cases hi : i < n
  · exact filter_map_range (fun j => (h j).mpr) hi
  · have hnone : read i = none := by simpa [hi] using h i
    rw [hnone, List.getElem?_eq_none_iff, length_filter_map_range fun j => (h j).mpr]
    omega

/-- A list whose items are read at their indexes is read as a whole. -/
theorem filter_map_range_eq {α : Type} {read : Nat → Option α} {as : List α}
    (h : ∀ i a, as[i]? = some a → read i = some a) :
    (List.range as.length).filterMap read = as := by
  have hsome : ∀ i < as.length, (read i).isSome = true := by
    intro i hi
    rw [h i as[i] (List.getElem?_eq_getElem hi)]
    rfl
  apply List.ext_getElem?
  intro i
  by_cases hi : i < as.length
  · rw [filter_map_range hsome hi, List.getElem?_eq_getElem hi]
    exact h i as[i] (List.getElem?_eq_getElem hi)
  · rw [List.getElem?_eq_none, List.getElem?_eq_none]
    · omega
    · rw [length_filter_map_range hsome]
      omega

theorem map_filter_map_range_eq {α β : Type} {read : Nat → Option α} {f : α → β} {bs : List β}
    (h : ∀ i b, bs[i]? = some b → ∃ a, read i = some a ∧ f a = b) :
    ((List.range bs.length).filterMap read).map f = bs := by
  rw [List.map_filterMap]
  refine filter_map_range_eq fun i b hb => ?_
  obtain ⟨a, ha, rfl⟩ := h i b hb
  rw [ha]
  rfl

theorem map_range_eq {α : Type} {f : Nat → α} {as : List α} (h : ∀ i a, as[i]? = some a → f i = a) :
    (List.range as.length).map f = as := by
  rw [← List.filterMap_eq_map]
  exact filter_map_range_eq fun i a ha => congrArg some (h i a ha)

end DocForms
