import DocForms.Proofs.Document.Fields
import DocForms.Registry

namespace DocForms

/-- Removes a key; the other entries keep their order. -/
def Fields.erase {α : Type} (f : Fields α) (key : String) : Fields α :=
  ⟨f.entries.filter (·.1 != key), f.nodup.sublist (List.filter_sublist.map _)⟩

namespace Registry

/-- The pairs of a registry under their short keys and under their full names. -/
@[ext]
structure Tables where
  byShort : Fields String
  byFull : Fields String

namespace Tables

/-- Each table in the place of the other. -/
def flip (t : Tables) : Tables :=
  ⟨t.byFull, t.byShort⟩

/-- Removes the pair of a short key from both tables. -/
def evict (t : Tables) (short : String) : Tables :=
  match t.byShort.get? short with
  | some full => ⟨t.byShort.erase short, t.byFull.erase full⟩
  | none => t

/-- Removes the pairs that use a short key or a full name. -/
def without (t : Tables) (short full : String) : Tables :=
  ((t.evict short).flip.evict full).flip

/-- Adds a pair to both tables, once the pairs that use a part of it are gone. -/
def withEntry (t : Tables) (short full : String) : Tables :=
  let rest := t.without short full
  ⟨rest.byShort.insert short full, rest.byFull.insert full short⟩

def withEntries (t : Tables) (pairs : List (String × String)) : Tables :=
  pairs.foldl (fun t e => t.withEntry e.1 e.2) t

def expand (t : Tables) (short : String) : String :=
  (t.byShort.get? short).getD short

def collapse (t : Tables) (full : String) : String :=
  (t.byFull.get? full).getD full

/-- The tables hold the same pairs, in one order. -/
def Mirrored (t : Tables) : Prop :=
  t.byFull.entries = t.byShort.entries.map Prod.swap

section Mirrored
variable {t : Tables}

theorem Mirrored.mem_iff (h : t.Mirrored) {short full : String} :
    (full, short) ∈ t.byFull.entries ↔ (short, full) ∈ t.byShort.entries := by
  rw [h, List.mem_map]
  constructor
  · rintro ⟨e, he, heq⟩
    cases heq
    exact he
  · exact fun hmem => ⟨_, hmem, rfl⟩

theorem Mirrored.flip (h : t.Mirrored) : t.flip.Mirrored := by
  have hback : (t.byShort.entries.map Prod.swap).map Prod.swap = t.byShort.entries := by
    rw [List.map_map, Prod.swap_swap_eq, List.map_id]
  exact hback.symm.trans (congrArg (List.map Prod.swap) (Eq.symm h))

theorem get_of_mem {f : Fields String} {key value : String} (h : (key, value) ∈ f.entries) :
    f.get? key = some value :=
  lookup_of_mem f.nodup h

/-- A pair that shares a part with a pair of the tables is that pair. -/
theorem Mirrored.same_pair (h : t.Mirrored) {short full : String}
    (hpair : (short, full) ∈ t.byShort.entries) {e : String × String}
    (he : e ∈ t.byShort.entries) : e.1 = short ↔ e.2 = full := by
  constructor
  · rintro rfl
    exact Option.some.inj ((get_of_mem he).symm.trans (get_of_mem hpair))
  · rintro rfl
    exact Option.some.inj ((get_of_mem (h.mem_iff.mpr he)).symm.trans (get_of_mem (h.mem_iff.mpr hpair)))

/-- Where a short key leads nowhere there is nothing to remove. -/
theorem filter_absent {f : Fields String} {key : String} (h : f.get? key = none) :
    f.entries.filter (·.1 != key) = f.entries := by
  refine List.filter_eq_self.mpr fun e he => bne_iff_ne.mpr ?_
  rintro rfl
  rw [get_of_mem he] at h
  cases h

theorem Mirrored.evict_entries (h : t.Mirrored) (short : String) :
    (t.evict short).byShort.entries = t.byShort.entries.filter (·.1 != short) ∧
      (t.evict short).Mirrored := by
  unfold Tables.evict
  cases hfound : t.byShort.get? short with
  | none => exact ⟨(filter_absent hfound).symm, h⟩
  | some full =>
    refine ⟨rfl, ?_⟩
    have hpair := mem_of_lookup hfound
    have hsame : ∀ e ∈ t.byShort.entries, (e.2 != full) = (e.1 != short) := by
      intro e he
      rw [Bool.eq_iff_iff, bne_iff_ne, bne_iff_ne]
      exact not_congr (h.same_pair hpair he).symm
    calc t.byFull.entries.filter (·.1 != full)
        = (t.byShort.entries.filter (·.2 != full)).map Prod.swap := by
          rw [h, List.filter_map]
          rfl
      _ = (t.byShort.entries.filter (·.1 != short)).map Prod.swap := by
          rw [List.filter_congr hsame]

/-- The pairs that stay are those with another short key and another full name. -/
theorem Mirrored.without_entries (h : t.Mirrored) (short full : String) :
    (t.without short full).byShort.entries =
        t.byShort.entries.filter (fun e => e.1 != short && e.2 != full) ∧
      (t.without short full).Mirrored := by
  obtain ⟨hshort, hfirst⟩ := h.evict_entries short
  obtain ⟨hfull, hsecond⟩ := hfirst.flip.evict_entries full
  refine ⟨?_, hsecond.flip⟩
  calc (t.without short full).byShort.entries
      = ((t.evict short).flip.evict full).byShort.entries.map Prod.swap := hsecond
    _ = ((t.evict short).byFull.entries.filter (·.1 != full)).map Prod.swap := by
        rw [hfull]
        rfl
    _ = (t.evict short).byShort.entries.filter (·.2 != full) := by
        rw [hfirst, List.filter_map, List.map_map, Prod.swap_swap_eq, List.map_id]
        rfl
    _ = t.byShort.entries.filter (fun e => e.1 != short && e.2 != full) := by
        rw [hshort, List.filter_filter]
        exact List.filter_congr fun e _ => Bool.and_comm _ _

/-- What an addition leaves in the tables: the pairs that stay, in their order, and then the pair that was
added. -/
theorem Mirrored.with_entry (h : t.Mirrored) (short full : String) :
    (t.withEntry short full).byShort.entries =
        t.byShort.entries.filter (fun e => e.1 != short && e.2 != full) ++ [(short, full)] ∧
      (t.withEntry short full).Mirrored := by
  obtain ⟨hkept, hmirrored⟩ := h.without_entries short full
  have hnewShort : short ∉ (t.without short full).byShort.keys := by
    intro hmem
    obtain ⟨e, he, rfl⟩ := List.mem_map.mp hmem
    have hkeep := (List.mem_filter.mp (hkept ▸ he)).2
    simp at hkeep
  have hnewFull : full ∉ (t.without short full).byFull.keys := by
    intro hmem
    obtain ⟨e, he, rfl⟩ := List.mem_map.mp hmem
    have hkeep := (List.mem_filter.mp (hkept ▸ hmirrored.mem_iff.mp he)).2
    simp at hkeep
  have hadded := Fields.insert_entries hnewShort full
  refine ⟨hadded.trans (congrArg (· ++ _) hkept), ?_⟩
  calc (t.withEntry short full).byFull.entries
      = (t.without short full).byFull.entries ++ [(full, short)] :=
        Fields.insert_entries hnewFull short
    _ = ((t.without short full).byShort.entries ++ [(short, full)]).map Prod.swap := by
        rw [List.map_append, hmirrored]
        rfl
    _ = (t.withEntry short full).byShort.entries.map Prod.swap := congrArg _ hadded.symm

end Mirrored
end Tables

/-- Both tables of a registry. -/
def tables (r : Registry) : Tables where
  byShort := ⟨r.entries, r.shortsNodup⟩
  byFull := ⟨r.entries.map Prod.swap, by rw [List.map_map]; exact r.fullsNodup⟩

theorem tables_mirrored (r : Registry) : r.tables.Mirrored := rfl

/-- The tables follow the registry through an addition. -/
theorem tables_with_entry (r : Registry) (short full : String) :
    (r.withEntry short full).tables = r.tables.withEntry short full := by
  obtain ⟨hshort, hmirrored⟩ := r.tables_mirrored.with_entry short full
  have hentries : (r.withEntry short full).entries = (r.tables.withEntry short full).byShort.entries :=
    hshort.symm
  ext1
  · exact Fields.eq_of_entries hentries
  · exact Fields.eq_of_entries ((congrArg (List.map Prod.swap) hentries).trans (Eq.symm hmirrored))

theorem tables_with_entries (r : Registry) (pairs : List (String × String)) :
    (r.withEntries pairs).tables = r.tables.withEntries pairs :=
  (List.foldl_hom tables fun r e => (r.tables_with_entry e.1 e.2).symm).symm

theorem lookup_eq_find {α : Type} (key : String) (es : List (String × α)) :
    es.lookup key = (es.find? fun e => e.1 == key).map Prod.snd := by
  induction es with
  | nil => rfl
  | cons e es ih =>
    rw [lookup_cons_if, List.find?_cons, ih]
    by_cases h : key = e.1
    · simp [h]
    · rw [if_neg h, beq_eq_false_iff_ne.mpr (Ne.symm h)]

theorem expand_tables (r : Registry) (short : String) : r.expand short = r.tables.expand short := by
  rw [expand, Tables.expand, Fields.get?, tables, lookup_eq_find]

theorem collapse_tables (r : Registry) (full : String) :
    r.collapse full = r.tables.collapse full := by
  rw [collapse, Tables.collapse, Fields.get?, tables, lookup_eq_find, List.find?_map, Option.map_map]
  rfl

/-- Each pair leads from its short key to its full name and back, and a name that is in no pair stands for
itself. -/
structure LeadsBothWays (r : Registry) : Prop where
  there : ∀ e ∈ r.entries, r.expand e.1 = e.2 ∧ r.collapse (r.expand e.1) = e.1
  back : ∀ e ∈ r.entries, r.collapse e.2 = e.1 ∧ r.expand (r.collapse e.2) = e.2
  noShort : ∀ name, name ∉ r.entries.map Prod.fst → r.expand name = name
  noFull : ∀ name, name ∉ r.entries.map Prod.snd → r.collapse name = name

theorem leads_both_ways (r : Registry) : r.LeadsBothWays := by
  have hexpand : ∀ e ∈ r.entries, r.expand e.1 = e.2 := by
    intro e he
    rw [expand_tables, Tables.expand, Tables.get_of_mem (f := r.tables.byShort) he, Option.getD_some]
  have hcollapse : ∀ e ∈ r.entries, r.collapse e.2 = e.1 := by
    intro e he
    have hturned : (e.2, e.1) ∈ r.tables.byFull.entries := r.tables_mirrored.mem_iff.mpr he
    rw [collapse_tables, Tables.collapse, Tables.get_of_mem hturned, Option.getD_some]
  constructor
  case there =>
    intro e he
    rw [hexpand e he]
    exact ⟨rfl, hcollapse e he⟩
  case back =>
    intro e he
    rw [hcollapse e he]
    exact ⟨rfl, hexpand e he⟩
  case noShort =>
    intro name hname
    rw [expand_tables, Tables.expand, Fields.get?, tables, lookup_none hname, Option.getD_none]
  case noFull =>
    intro name hname
    have hkeys : name ∉ (r.entries.map Prod.swap).map Prod.fst := by
      rwa [List.map_map]
    rw [collapse_tables, Tables.collapse, Fields.get?, tables, lookup_none hkeys, Option.getD_none]

/-- However pairs are added, the two tables hold the same pairs as the registry, each turned round in the
other; every pair leads both ways; and one more pair goes to the end, where only those that use its short
key or its full name give way to it. -/
theorem stays_one_to_one (start : Registry) (pairs : List (String × String)) :
    let r := start.withEntries pairs
    let t := start.tables.withEntries pairs
    t.byShort.entries = r.entries ∧ t.byFull.entries = r.entries.map Prod.swap ∧
      t.byShort.size = t.byFull.size ∧ r.LeadsBothWays ∧
      (∀ name, t.expand name = r.expand name ∧ t.collapse name = r.collapse name) ∧
      ∀ short full,
        (t.withEntry short full).byShort.entries =
            t.byShort.entries.filter (fun e => e.1 != short && e.2 != full) ++ [(short, full)] ∧
          t.withEntry short full = (r.withEntry short full).tables := by
  intro r t
  have ht : t = r.tables := (start.tables_with_entries pairs).symm
  rw [ht]
  refine ⟨rfl, rfl, (List.length_map ..).symm, r.leads_both_ways, fun name => ?_, fun short full => ?_⟩
  · exact ⟨(r.expand_tables name).symm, (r.collapse_tables name).symm⟩
  · exact ⟨(r.tables_mirrored.with_entry short full).1, (r.tables_with_entry short full).symm⟩

section Example

/-- Names that are short keys and full names at once. -/
def chained : Registry :=
  .empty |>.withEntries [("a", "b"), ("b", "c"), ("c", "a")]

/-- The last addition takes the short key of one pair and the full name of another. -/
theorem stays_one_to_one_chained :
    (chained.withEntries [("a", "c")]).entries = [("c", "a"), ("a", "c")] ∧
      (chained.tables.withEntries [("a", "c")]).byFull.entries = [("a", "c"), ("c", "a")] ∧
      (chained.withEntries [("a", "c")]).expand "a" = "c" ∧
      (chained.withEntries [("a", "c")]).collapse "b" = "b" := by
  obtain ⟨-, hfull, -, hleads, -, -⟩ := stays_one_to_one chained [("a", "c")]
  have hentries : (chained.withEntries [("a", "c")]).entries = [("c", "a"), ("a", "c")] := by decide
  refine ⟨hentries, hfull.trans (congrArg _ hentries), (hleads.there ("a", "c") ?_).1, hleads.noFull "b" ?_⟩
  · rw [hentries]
    decide
  · rw [hentries]
    decide

end Example
end Registry
end DocForms
