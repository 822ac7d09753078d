import DocForms.Manifest.Basic
import DocForms.Proofs.Document.Fields

namespace DocForms.Manifest

theorem lookup_insert_entry (key other : String) (r : SourceRecord)
    (es : List (String × SourceRecord)) :
    (insertEntry key r es).lookup other = if other = key then some r else es.lookup other := by
  induction es with
  | nil => exact lookup_cons_if other key r []
  | cons e es ih =>
    obtain ⟨first, held⟩ := e
    rw [insertEntry]
    split
    · exact lookup_cons_if other key r _
    · split
      · rename_i heq
        dsimp only at heq
        rw [lookup_cons_if, lookup_cons_if, ← heq]
        by_cases h : other = key
        · rw [if_pos h, if_pos h]
        · rw [if_neg h, if_neg h, if_neg h]
      · rename_i hne
        dsimp only at hne
        rw [lookup_cons_if, lookup_cons_if, ih]
        by_cases h : other = key
        · rw [if_pos h, if_pos h, if_neg (h ▸ hne)]
        · rw [if_neg h, if_neg h]

theorem get_insert (m : Manifest) (key other : String) (r : SourceRecord) :
    (m.insert key r).get? other = if other = key then some r else m.get? other :=
  lookup_insert_entry key other r m.entries

theorem get_insert_self (m : Manifest) (key : String) (r : SourceRecord) :
    (m.insert key r).get? key = some r := by
  rw [get_insert, if_pos rfl]

/-- A manifest that has no record for a key. -/
def without (m : Manifest) (key : String) : Manifest :=
  ⟨m.entries.filter (·.1 ≠ key), m.sorted.filter _⟩

theorem get_without (m : Manifest) (key other : String) :
    (m.without key).get? other = if other = key then none else m.get? other := by
  rw [without, get?, get?]
  dsimp only
  induction m.entries with
  | nil => simp
  | cons e rest ih =>
    obtain ⟨first, r⟩ := e
    by_cases hfirst : first = key
    · rw [List.filter_cons_of_neg (by simpa using hfirst), ih, lookup_cons_if]
      split
      · rfl
      · rename_i hother
        rw [if_neg fun heq => hother (heq.trans hfirst)]
    · rw [List.filter_cons_of_pos (by simpa using hfirst), lookup_cons_if, lookup_cons_if, ih]
      by_cases hother : other = first
      · rw [if_pos hother, if_pos hother, if_neg (hother ▸ hfirst)]
      · rw [if_neg hother, if_neg hother]

/-- The later of a record that is held and another one. -/
def later (held : Option SourceRecord) (r : SourceRecord) : SourceRecord :=
  match held with
  | some h => if r.isNewerThan h then r else h
  | none => r

theorem get_merge (m : Manifest) (key other : String) (r : SourceRecord) :
    (m.merge key r).get? other =
      if other = key then some (later (m.get? key) r) else m.get? other := by
  rw [merge]
  cases hheld : m.get? key with
  | none => exact get_insert m key other r
  | some held =>
    dsimp only [later]
    by_cases hnewer : r.isNewerThan held = true
    · rw [if_pos hnewer, if_pos hnewer]
      exact get_insert m key other r
    · rw [if_neg hnewer, if_neg hnewer]
      split
      · rename_i h
        rw [h, hheld]
      · rfl

theorem later_cases (held : Option SourceRecord) (r : SourceRecord) :
    later held r = r ∨ held = some (later held r) := by
  cases held with
  | none => exact .inl rfl
  | some h =>
    rw [later]
    split
    · exact .inl rfl
    · exact .inr rfl

theorem get_merge_all (m : Manifest) {records : List (String × SourceRecord)}
    (hnodup : (records.map Prod.fst).Nodup) (key : String) :
    (m.mergeAll records).get? key =
      match records.lookup key with
      | some r => some (later (m.get? key) r)
      | none => m.get? key := by
  induction records generalizing m with
  | nil => rfl
  | cons e rest ih =>
    obtain ⟨first, r⟩ := e
    obtain ⟨hfirst, hrest⟩ := List.nodup_cons.mp hnodup
    rw [mergeAll, List.foldl_cons, ← mergeAll, ih (m.merge first r) hrest, lookup_cons_if,
      get_merge]
    by_cases h : key = first
    · rw [if_pos h, if_pos h, h, lookup_none hfirst]
    · rw [if_neg h, if_neg h]

/-- The keys of a manifest are all different. -/
theorem keys_nodup (m : Manifest) : (m.entries.map Prod.fst).Nodup := by
  refine List.pairwise_map.mpr (m.sorted.imp ?_)
  intro a b hlt heq
  rw [heq] at hlt
  exact String.lt_irrefl _ hlt

theorem get_iff {m : Manifest} {key : String} {r : SourceRecord} :
    m.get? key = some r ↔ (key, r) ∈ m.entries :=
  ⟨mem_of_lookup, lookup_of_mem m.keys_nodup⟩

/-- Manifests that hold the same for all keys are the same. -/
theorem ext_get {m m' : Manifest} (h : ∀ key, m.get? key = m'.get? key) : m = m' := by
  have hmem : ∀ e, e ∈ m.entries ↔ e ∈ m'.entries := fun e => by
    rw [← get_iff, ← get_iff, h]
  have hnodup (m : Manifest) : m.entries.Nodup := m.sorted.imp fun hlt heq => by
    rw [heq] at hlt
    exact String.lt_irrefl _ hlt
  have hperm : m.entries.Perm m'.entries :=
    (List.perm_ext_iff_of_nodup (hnodup m) (hnodup m')).mpr hmem
  have hentries : m.entries = m'.entries := hperm.eq_of_pairwise
    (fun a b _ _ hab hba => absurd (String.lt_trans hab hba) (String.lt_irrefl _)) m.sorted m'.sorted
  cases m
  cases m'
  cases hentries
  rfl

end DocForms.Manifest
