import DocForms.Proofs.Manifest.Records
import DocForms.Proofs.Time.Order
import Mathlib.Data.List.MinMax
import Mathlib.Data.List.Nodup

namespace DocForms.Manifest

/-- The latest of records, and of equally late ones the first. -/
def latest (rs : List SourceRecord) : Option SourceRecord :=
  rs.argmax SourceRecord.writtenAt

/-- The records for a key among those that are merged. -/
def recordsFor (key : String) (records : List (String × SourceRecord)) : List SourceRecord :=
  (records.filter (·.1 = key)).map Prod.snd

/-- The records that a key had or was given, in the order in which they came. -/
def arrivals (m : Manifest) (records : List (String × SourceRecord)) (key : String) :
    List SourceRecord :=
  (m.get? key).toList ++ recordsFor key records

section Latest

variable {held : Option SourceRecord} {r : SourceRecord} {rs rs' : List SourceRecord}

theorem latest_held (held : Option SourceRecord) : latest held.toList = held := by
  cases held <;> rfl

theorem latest_none : latest rs = none ↔ rs = [] :=
  List.argmax_eq_none

theorem latest_mem (h : latest rs = some r) : r ∈ rs :=
  List.argmax_mem h

theorem le_latest (h : latest rs = some r) {x : SourceRecord} (hx : x ∈ rs) :
    x.writtenAt ≤ r.writtenAt :=
  List.le_of_mem_argmax (f := SourceRecord.writtenAt) hx h

theorem newer_iff {x : SourceRecord} : x.isNewerThan r = true ↔ r.writtenAt < x.writtenAt :=
  Iff.rfl

/-- Where one more record comes, the later one of both is the latest. -/
theorem latest_concat (rs : List SourceRecord) (x : SourceRecord) :
    latest (rs ++ [x]) = some (later (latest rs) x) := by
  rw [latest, List.argmax_concat, ← latest]
  cases latest rs with
  | none => rfl
  | some r =>
    dsimp only [later]
    by_cases h : r.writtenAt < x.writtenAt
    · rw [if_pos h, if_pos (newer_iff.mpr h)]
    · rw [if_neg h, if_neg (mt newer_iff.mp h)]

/-- A record that is held gives way only to one that is later. -/
theorem latest_cons (r : SourceRecord) (rs : List SourceRecord) :
    latest (r :: rs) = some (match latest rs with
      | some x => if r.writtenAt < x.writtenAt then x else r
      | none => r) := by
  rw [latest, List.argmax_cons, ← latest]
  cases latest rs with
  | none => rfl
  | some x =>
    dsimp only
    split <;> rfl

/-- The latest of records with different times does not depend on their order. -/
theorem latest_perm (h : rs.Perm rs') (hdistinct : (rs.map SourceRecord.writtenAt).Nodup) :
    latest rs = latest rs' := by
  cases hlatest : latest rs with
  | none =>
    obtain rfl := latest_none.mp hlatest
    rw [← h.nil_eq]
    rfl
  | some r =>
    cases hlatest' : latest rs' with
    | none =>
      obtain rfl := latest_none.mp hlatest'
      rw [h.eq_nil] at hlatest
      cases hlatest
    | some r' =>
      have hmem' : r' ∈ rs := h.mem_iff.mpr (latest_mem hlatest')
      have htime := le_antisymm (le_latest hlatest' (h.mem_iff.mp (latest_mem hlatest)))
        (le_latest hlatest hmem')
      rw [List.inj_on_of_nodup_map hdistinct (latest_mem hlatest) hmem' htime]

theorem latest_held_perm (h : rs.Perm rs') (hdistinct : (rs.map SourceRecord.writtenAt).Nodup)
    (held : Option SourceRecord) : latest (held.toList ++ rs) = latest (held.toList ++ rs') := by
  cases held with
  | none => exact latest_perm h hdistinct
  | some r =>
    dsimp only [Option.toList_some, List.cons_append, List.nil_append]
    rw [latest_cons, latest_cons, latest_perm h hdistinct]

/-- The latest record stays so when the others come again. -/
theorem latest_again (h : ∀ x ∈ rs, x ∈ rs') : latest ((latest rs').toList ++ rs) = latest rs' := by
  cases hlatest : latest rs' with
  | none =>
    rw [latest_none.mp hlatest] at h
    rw [List.eq_nil_iff_forall_not_mem.mpr fun x hx => List.not_mem_nil (h x hx)]
    rfl
  | some r =>
    dsimp only [Option.toList_some, List.cons_append, List.nil_append]
    rw [latest_cons]
    cases hrest : latest rs with
    | none => rfl
    | some x => exact congrArg some (if_neg (not_lt.mpr (le_latest hlatest (h x (latest_mem hrest)))))

end Latest

variable {m : Manifest} {records records' : List (String × SourceRecord)} {key : String}

theorem merge_all_get (m : Manifest) (records : List (String × SourceRecord)) (key : String) :
    (m.mergeAll records).get? key = latest (m.arrivals records key) := by
  induction records using List.reverseRecOn with
  | nil =>
    rw [arrivals, recordsFor, List.filter_nil, List.map_nil, List.append_nil, latest_held]
    rfl
  | append_singleton rest e ih =>
    have hmerge : m.mergeAll (rest ++ [e]) = (m.mergeAll rest).merge e.1 e.2 := List.foldl_concat ..
    have hfor : recordsFor key (rest ++ [e]) =
        if key = e.1 then recordsFor key rest ++ [e.2] else recordsFor key rest := by
      rw [recordsFor, List.filter_append, List.map_append, ← recordsFor, List.filter_singleton]
      by_cases h : key = e.1
      · simp [h]
      · simp [h, Ne.symm h]
    rw [hmerge, get_merge, arrivals, hfor]
    split
    · rename_i h
      rw [← List.append_assoc, latest_concat, ← arrivals, ← ih, h]
    · exact ih

theorem records_for_perm (h : records.Perm records') (key : String) :
    (recordsFor key records).Perm (recordsFor key records') :=
  (h.filter _).map _

/-- Where no key has two records of one time, those of a key have different times. -/
theorem times_nodup (h : (records.map fun e => (e.1, e.2.writtenAt)).Nodup) (key : String) :
    ((recordsFor key records).map SourceRecord.writtenAt).Nodup := by
  have hown := h.sublist ((List.filter_sublist (p := (·.1 = key))).map _)
  rw [recordsFor, List.map_map]
  refine List.pairwise_map.mpr ((List.pairwise_map.mp hown).imp_of_mem fun ha hb hne hsame => hne ?_)
  have hkey := of_decide_eq_true (List.mem_filter.mp ha).2
  have hkey' := of_decide_eq_true (List.mem_filter.mp hb).2
  exact Prod.ext (hkey.trans hkey'.symm) hsame

/-- However records are merged, a key keeps the latest that it had or was given, and of equally late ones
the first; keys that were given none keep what they had. So records with different times may be merged in any
order, and what was merged once changes nothing when it is merged again. -/
theorem merging_keeps_latest (m : Manifest) (records : List (String × SourceRecord)) :
    (∀ key, (m.mergeAll records).get? key = latest (m.arrivals records key)) ∧
    (∀ key, key ∉ records.map Prod.fst → (m.mergeAll records).get? key = m.get? key) ∧
    (∀ records', records.Perm records' →
      (records.map fun e => (e.1, e.2.writtenAt)).Nodup →
      m.mergeAll records = m.mergeAll records') ∧
    (m.mergeAll records).mergeAll records = m.mergeAll records ∧ m.mergeAll m.entries = m := by
  refine ⟨merge_all_get m records, fun key hkey => ?_, fun records' hperm hdistinct => ?_, ?_, ?_⟩
  · have hnone : recordsFor key records = [] := by
      rw [recordsFor, List.map_eq_nil_iff, List.filter_eq_nil_iff]
      rintro e he hsame
      exact hkey (of_decide_eq_true hsame ▸ List.mem_map_of_mem he)
    rw [merge_all_get, arrivals, hnone, List.append_nil, latest_held]
  · refine ext_get fun key => ?_
    rw [merge_all_get, merge_all_get]
    exact latest_held_perm (records_for_perm hperm key) (times_nodup hdistinct key) (m.get? key)
  · refine ext_get fun key => ?_
    rw [merge_all_get (m.mergeAll records), arrivals, merge_all_get]
    exact latest_again fun x hx => List.mem_append_right _ hx
  · refine ext_get fun key => ?_
    rw [get_merge_all m m.keys_nodup]
    cases hget : m.get? key with
    | none =>
      rw [get?] at hget
      rw [hget]
    | some r =>
      have hself : r.isNewerThan r = false := Instant.before_irrefl r.writtenAt
      rw [← get?, hget]
      exact congrArg some (if_neg (Bool.eq_false_iff.mp hself))

section Example

/-- A record of a given second. -/
def madeAt (second : Int) : SourceRecord :=
  ⟨default, [], ⟨second, 0⟩⟩

/-- Another record of the third second. -/
def rival : SourceRecord :=
  ⟨⟨Vector.replicate 32 1⟩, [], ⟨3, 0⟩⟩

def twoKnown : Manifest :=
  empty |>.insert "a.dx" rival |>.insert "c.dx" (madeAt 1)

def arrived : List (String × SourceRecord) :=
  [("a.dx", madeAt 3), ("b.dx", madeAt 2), ("a.dx", madeAt 2), ("b.dx", madeAt 4)]

/-- A record that is held stays before one of the same time, and the order does not matter. -/
theorem merging_keeps_latest_rival :
    (twoKnown.mergeAll arrived).get? "a.dx" = some rival ∧
    (twoKnown.mergeAll arrived).get? "b.dx" = some (madeAt 4) ∧
    (twoKnown.mergeAll arrived).get? "c.dx" = some (madeAt 1) ∧
    twoKnown.mergeAll arrived = twoKnown.mergeAll arrived.reverse := by
  obtain ⟨hlatest, hothers, horder, -⟩ := merging_keeps_latest twoKnown arrived
  refine ⟨?_, ?_, ?_, horder _ (List.reverse_perm _).symm (by decide)⟩
  · rw [hlatest]
    decide +kernel
  · rw [hlatest]
    decide +kernel
  · rw [hothers _ (by decide)]
    decide +kernel

end Example

end DocForms.Manifest
