import DocForms.Document.Fields

namespace DocForms

theorem lookup_cons_if {α : Type} (key first : String) (x : α) (rest : List (String × α)) :
    ((first, x) :: rest).lookup key = if key = first then some x else rest.lookup key := by
  rw [List.lookup_cons]
  by_cases h : key = first
  · rw [if_pos h, beq_iff_eq.mpr h]
  · rw [if_neg h, beq_eq_false_iff_ne.mpr h]

theorem lookup_none {α : Type} {key : String} {es : List (String × α)}
    (h : key ∉ es.map Prod.fst) : es.lookup key = none := by
  refine List.lookup_eq_none_iff.mpr fun e he => bne_iff_ne.mpr ?_
  rintro rfl
  exact h (List.mem_map_of_mem he)

theorem mem_of_lookup {α : Type} {key : String} {x : α} {es : List (String × α)}
    (h : es.lookup key = some x) : (key, x) ∈ es := by
  obtain ⟨before, after, rfl, -⟩ := List.lookup_eq_some_iff.mp h
  simp

theorem lookup_of_mem {α : Type} {key : String} {x : α} {es : List (String × α)}
    (hnodup : (es.map Prod.fst).Nodup) (h : (key, x) ∈ es) : es.lookup key = some x := by
  induction es with
  | nil => cases h
  | cons e es ih =>
    obtain ⟨first, y⟩ := e
    rw [List.map_cons, List.nodup_cons] at hnodup
    rw [lookup_cons_if]
    rcases List.mem_cons.mp h with heq | hmem
    · cases heq
      exact if_pos rfl
    · rw [if_neg, ih hnodup.2 hmem]
      rintro rfl
      exact hnodup.1 (List.mem_map.mpr ⟨_, hmem, rfl⟩)

/-- What is found under a key does not depend on the order of the entries. -/
theorem lookup_perm {α : Type} {es fs : List (String × α)} (hnodup : (es.map Prod.fst).Nodup)
    (h : es.Perm fs) (key : String) : fs.lookup key = es.lookup key := by
  cases hfound : fs.lookup key with
  | some x => exact (lookup_of_mem hnodup (h.mem_iff.mpr (mem_of_lookup hfound))).symm
  | none =>
    refine (lookup_none fun hkey => ?_).symm
    obtain ⟨⟨_, x⟩, hentry, rfl⟩ := List.mem_map.mp hkey
    rw [lookup_of_mem ((h.map Prod.fst).nodup_iff.mp hnodup) (h.mem_iff.mp hentry)] at hfound
    cases hfound

namespace Fields
variable {α : Type}

theorem eq_of_entries {f g : Fields α} (h : f.entries = g.entries) : f = g := by
  cases f
  cases g
  cases h
  rfl

theorem contains_eq_false {f : Fields α} {key : String} (h : key ∉ f.keys) :
    f.contains key = false := by
  apply List.any_eq_false.mpr
  intro e he heq
  apply h
  rw [← eq_of_beq heq]
  exact List.mem_map_of_mem he

theorem not_mem_of_contains {f : Fields α} {key : String} (h : f.contains key = false) :
    key ∉ f.keys := by
  intro hm
  obtain ⟨e, he, rfl⟩ := List.mem_map.mp hm
  exact List.any_eq_false.mp h e he (beq_self_eq_true _)

theorem contains_iff {f : Fields α} {key : String} : f.contains key = true ↔ key ∈ f.keys := by
  simp [contains, keys]

/-- A new key goes to the end. -/
theorem insert_entries {f : Fields α} {key : String} (h : key ∉ f.keys) (value : α) :
    (f.insert key value).entries = f.entries ++ [(key, value)] := by
  rw [insert, dif_neg]
  simp [contains_eq_false h]

theorem mem_insert_keys {f : Fields α} {key k : String} {value : α}
    (h : k ∈ (f.insert key value).keys) : k ∈ f.keys ∨ k = key := by
  rw [insert] at h
  split at h
  · rw [keys, keys_replaced] at h
    exact .inl h
  · simpa [keys] using h

/-- A key whose entries before it have been inserted is new. -/
theorem new_key {f g : Fields α} {key : String} {value : α} {rest : List (String × α)}
    (h : g.entries = f.entries ++ (key, value) :: rest) : key ∉ f.keys := by
  have hn := g.nodup
  rw [h, List.map_append, List.map_cons] at hn
  intro hm
  exact (List.nodup_append.mp hn).2.2 key hm key (by simp) rfl

end Fields
end DocForms
