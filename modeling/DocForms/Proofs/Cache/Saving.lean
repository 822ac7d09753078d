import DocForms.Proofs.Cache.Endings
import DocForms.Proofs.Cache.Reopening

namespace DocForms.Cache
open DocForms.Path FileTree

attribute [local irreducible] Path.join

variable {env : Environment} {root : String} {o : Options} {c c' : Cache} {disk disk' : Disk}
  {t t' : FileTree} {dir key source : String} {sources : List String} {names : SourceNames}
  {r : SourceRecord} {endings : List Ending}

/-- The attempts to save records that tasks made. -/
def filings (endings : List Ending) : List Filing :=
  endings.filterMap fun e => e.1.map fun m => ⟨m.1, m.2.record, m.2.saved⟩

theorem mem_filings {f : Filing} : f ∈ filings endings ↔
    ∃ e ∈ endings, ∃ m ∈ e.1, (⟨m.1, m.2.record, m.2.saved⟩ : Filing) = f := by
  simp only [filings, List.mem_filterMap, Option.map_eq_some_iff, Option.mem_def]

/-- A task owns the file of the record of its source. -/
def ownRecord (c : Cache) (source : String) (q : Place) : Prop :=
  ∃ names, c.sourceNames source = .ok names ∧ q = c.recordPlace names

theorem own_records_apart (honce : c.NamedOnce sources) : sources.Pairwise fun a b =>
    ∀ q, (c.ownRecord a q → ¬c.Touches b q) ∧ (c.ownRecord b q → ¬c.Touches a q) := by
  -- a record file that two sources have is that of one source
  have hsame : ∀ a b q, c.ownRecord a q → c.Touches b q →
      ∃ names, c.sourceNames a = .ok names ∧ c.sourceNames b = .ok names := by
    rintro a b q ⟨names, hnames, rfl⟩ ⟨names', hnames', hq⟩
    rcases mem_made_places.mp hq with ⟨format, hplace⟩ | hplace
    · exact absurd hplace.symm artifact_place_ne_record_place
    · obtain rfl := (record_place_inj (source_names_ok hnames) (source_names_ok hnames')).mp hplace
      exact ⟨names, hnames, hnames'⟩
  refine honce.imp fun {a b} hne q => ⟨fun ha hb => ?_, fun hb ha => ?_⟩
  · obtain ⟨names, hnames, hnames'⟩ := hsame a b q ha hb
    exact hne names hnames hnames'
  · obtain ⟨names, hnames', hnames⟩ := hsame b a q hb ha
    exact hne names hnames hnames'

/-- The files of records that tasks may write are those of their sources. -/
theorem record_may_write {file : List String} (hfile : Manifest.IsRecordFile file)
    (h : c.MayWrite sources (target c.manifestDir ++ file)) :
    ∃ source ∈ sources, ∃ names, c.sourceNames source = .ok names ∧
      file = renamed recordName names := by
  obtain ⟨source, hsource, names, hnames, hq⟩ := h
  rcases mem_made_places.mp hq with ⟨format, hplace⟩ | hplace
  · exact absurd hfile (artifact_no_record_file hplace)
  · exact ⟨source, hsource, names, hnames, List.append_cancel_left hplace⟩

section Ends
variable {e : Ending} (h : Ends env c sources (c.ownRecord source) t source t' e)
include h

theorem Ends.record_read {m : SourceNames × Published} (hm : m ∈ e.1) (hsaved : m.2.saved = true) :
    t'.read (c.recordPath (keyOf m.1)) = .ok (m.2.record.storedText (keyOf m.1)).toUTF8 := by
  cases h with
  | underived => cases hm
  | @made u s made i compactDone bufferDone _ hs hrecord hstale hdid =>
    cases hm
    have hnames := (derive_in_ok hs).1
    have hread := hdid.written (c.recordAttempt s.names made.record made.saved) (by simp [attempts])
      ⟨s.names, hnames, target_record_attempt (source_names_ok hnames) _ _⟩ hsaved
    dsimp only [recordAttempt] at hread
    exact hread

theorem Ends.record_kept (hnames : c.sourceNames source = .ok names)
    (hnone : ∀ m ∈ e.1, m.2.saved = false) :
    t'.contentAt? (c.recordPlace names) = t.contentAt? (c.recordPlace names) := by
  have hown : c.ownRecord source (c.recordPlace names) := ⟨names, hnames, rfl⟩
  cases h with
  | underived _ _ hkept => exact hkept.untouched _ hown (List.forall_mem_nil _)
  | @made u s made i compactDone bufferDone _ hs hrecord hstale hdid =>
    obtain rfl : s.names = names := Except.ok.inj ((derive_in_ok hs).1.symm.trans hnames)
    have htarget := target_record_attempt (c := c) (source_names_ok hnames) made.record made.saved
    have hkept := hdid.failed (c.recordAttempt s.names made.record made.saved) (by simp [attempts])
      (htarget ▸ hown) (hnone _ rfl)
    rwa [htarget] at hkept

end Ends

/-- Tasks for different sources attempt to save the records that they made. -/
theorem together_filed (hcalm : Calm c sources t t') (hends : List.Forall₂ (fun source ending =>
      Ends env c sources (c.ownRecord source) t source t' ending) sources endings) :
    Filed c.manifestDir (filings endings) t t' := by
  refine ⟨fun f hf => ?_, hcalm.keeps, fun file hfile hlist => ?_, fun f hf hsaved => ?_,
    fun file key hk hnone => ?_⟩
  · obtain ⟨e, he, m, hm, rfl⟩ := mem_filings.mp hf
    obtain ⟨source, -, hend⟩ := mem_left hends he
    exact source_names_ok (hend.source_names hm)
  · refine (hcalm.lists _ hlist).imp_right fun hwrite => ?_
    obtain ⟨source, -, names, hnames, rfl⟩ := record_may_write hfile hwrite
    exact ⟨names, source_names_ok hnames, rfl⟩
  · obtain ⟨e, he, m, hm, rfl⟩ := mem_filings.mp hf
    obtain ⟨source, -, hend⟩ := mem_left hends he
    exact hend.record_read hm hsaved
  · by_cases hwrite : c.MayWrite sources (target c.manifestDir ++ file)
    · obtain ⟨source, hmem, names, hnames, rfl⟩ := record_may_write hk.named hwrite
      obtain rfl := (keyed_source (source_names_ok hnames)).key_unique hk
      obtain ⟨e, he, hend⟩ := mem_right hends hmem
      refine hend.record_kept hnames fun m hm => Bool.eq_false_iff.mpr fun hsaved => ?_
      obtain rfl : m.1 = names := Except.ok.inj ((hend.source_names hm).symm.trans hnames)
      exact hnone _ (mem_filings.mpr ⟨e, he, m, hm, rfl⟩) hsaved rfl
    · exact hcalm.others _ hwrite

/-- A cache knows what opening would find, up to the keys that are pending. -/
structure Synced (c : Cache) (t : FileTree) : Prop where
  legible : Legible c.manifestDir t
  nodup : c.pending.Nodup
  waiting : ∀ key ∈ c.pending, (∃ names, IsSource names ∧ key = keyOf names) ∧
    ∃ r, c.manifest.get? key = some r
  kept : ∀ key r, c.manifest.get? key = some r → r.writtenAt.IsKept
  found : ∀ key, key ∉ c.pending →
    c.manifest.get? key = (Manifest.load t c.manifestDir).get? key

theorem synced_open (h : Legible (manifestPath root o) disk.tree) :
    Synced (openAt disk root o) disk.tree :=
  ⟨h, .nil, nofun, fun _ _ hget => Manifest.load_record_kept (Manifest.load_get hget).2,
    fun _ _ => rfl⟩

/-- Taking in the record on disk matters for pending keys only. -/
theorem Synced.refresh (h : Synced c disk.tree) (hsource : IsSource names) :
    Synced (c.refresh disk (keyOf names)) disk.tree := by
  rw [Cache.refresh]
  cases hload : Manifest.loadRecord? disk.tree c.manifestDir (keyOf names) with
  | none => exact h
  | some r =>
    refine ⟨h.legible, h.nodup, fun key hkey => ⟨(h.waiting key hkey).1, ?_⟩, fun key held hget => ?_,
      fun key hkey => ?_⟩
    · rw [Manifest.get_merge]
      split
      · exact ⟨_, rfl⟩
      · exact (h.waiting key hkey).2
    · rw [Manifest.get_merge] at hget
      split at hget
      · cases hget
        rcases Manifest.later_cases (c.manifest.get? (keyOf names)) r with hlater | hlater
        · rw [hlater]
          exact Manifest.load_record_kept hload
        · exact h.kept _ _ hlater
      · exact h.kept key held hget
    · rw [Manifest.get_merge]
      split
      · rename_i heq
        subst heq
        have hfound := h.legible.load_get.mpr ⟨⟨_, keyed_source hsource⟩, hload⟩
        rw [h.found _ hkey, hfound, Manifest.later, ite_self]
        exact hfound.symm
      · exact h.found key hkey

/-- What tasks made is taken in. -/
theorem Synced.taken (h : Synced c t) (hapart : KeysApart endings)
    (hkept : ∀ e ∈ endings, ∀ m ∈ e.1, m.2.record.writtenAt.IsKept)
    (hfiled : Filed c.manifestDir (filings endings) t t') : Synced (c.takeAll endings) t' := by
  have hdir := (take_all_alike c endings).manifest_dir
  -- a key is that of something that was made or has to do with none of it
  have hcases (key : String) : (∃ e ∈ endings, ∃ m ∈ e.1, keyOf m.1 = key) ∨
      ∀ e ∈ endings, ∀ m ∈ e.1, keyOf m.1 ≠ key := by
    by_cases hmade : ∃ e ∈ endings, ∃ m ∈ e.1, keyOf m.1 = key
    · exact .inl hmade
    · exact .inr fun e he m hm hkey => hmade ⟨e, he, m, hm, hkey⟩
  refine ⟨hdir ▸ hfiled.legible h.legible, take_all_nodup endings h.nodup, fun key hkey => ?_,
    fun key r hget => ?_, fun key hkey => ?_⟩
  · rcases hcases key with ⟨e, he, m, hm, rfl⟩ | hother
    · exact ⟨⟨m.1, hfiled.sources _ (mem_filings.mpr ⟨e, he, m, hm, rfl⟩), rfl⟩,
        m.2.record, (take_all_made hapart he hm).1⟩
    · obtain ⟨hget, hpending⟩ := take_all_other (c := c) hother
      rw [hget]
      exact h.waiting key (hpending.mp hkey)
  · rcases hcases key with ⟨e, he, m, hm, rfl⟩ | hother
    · rw [(take_all_made hapart he hm).1] at hget
      exact Option.some.inj hget ▸ hkept e he m hm
    · rw [(take_all_other hother).1] at hget
      exact h.kept key r hget
  · rw [hdir]
    rcases hcases key with ⟨e, he, m, hm, rfl⟩ | hother
    · obtain ⟨hget, hpending⟩ := take_all_made (c := c) hapart he hm
      have hsaved : m.2.saved = true := by
        rwa [hpending h.nodup, Bool.not_eq_false] at hkey
      rw [hget]
      exact (hfiled.load_saved h.legible (mem_filings.mpr ⟨e, he, m, hm, rfl⟩) hsaved
        (hkept e he m hm)).symm
    · obtain ⟨hget, hpending⟩ := take_all_other (c := c) hother
      rw [hget, h.found key fun hmem => hkey (hpending.mpr hmem)]
      refine (hfiled.load_other h.legible fun f hf _ => ?_).symm
      obtain ⟨e, he, m, hm, rfl⟩ := mem_filings.mp hf
      exact hother e he m hm

/-- Files changed that have nothing to do with records. -/
theorem Synced.left (h : Synced c t) (hfiled : Filed c.manifestDir [] t t') : Synced c t' :=
  h.taken .nil (List.forall_mem_nil _) hfiled

theorem Synced.apply {d : Document} {result : Except Failure Report} (h : Synced c disk.tree)
    (hclock : ∀ i, (env.clock i).IsKept)
    (houtside : ∀ names, c.sourceNames source = .ok names → c.Outside names)
    (ha : c.apply env disk d source = (disk', c', result)) : Synced c' disk'.tree := by
  have happlied := apply_applied env c disk d source
  rw [ha] at happlied
  have hrefresh {p : Prepared} (hp : c.prepare disk d source = .ok p) :
      Synced (c.refresh disk (keyOf p.names)) disk.tree ∧
        (c.refresh disk (keyOf p.names)).manifestDir = c.manifestDir := by
    obtain ⟨m, hm⟩ := refresh_eq c disk (keyOf p.names)
    exact ⟨h.refresh (source_names_ok (prepare_ok.mp hp).1), by rw [hm]; rfl⟩
  cases happlied with
  | unprepared => exact h
  | refused hp => exact (hrefresh hp).1
  | unwritten hp _ hwrite =>
    obtain ⟨hsynced, hdir⟩ := hrefresh hp
    obtain ⟨hwrote, -⟩ := source_wrote (source_names_ok (prepare_ok.mp hp).1) hwrite
    exact hsynced.left (.none hwrote.keeps hwrote.unchanged fun q hq =>
      (hwrote.lists q hq).resolve_right nofun)
  | @written p text _ _ made hp htext hwrite hpublish =>
    obtain ⟨hsynced, hdir⟩ := hrefresh hp
    have hnames := (prepare_ok.mp hp).1
    have hsettles := settles_of_written (houtside _ hnames) hp (compose_ok.mp htext).2 hwrite hpublish
    have hkept : made.record.writtenAt.IsKept := by
      rw [hsettles.record]
      exact hclock _
    change Synced (Cache.takeAll _ [(some (p.names, made), c.outcome p.names made)]) _
    refine hsynced.taken (List.pairwise_singleton _ _) ?_
      (hdir ▸ hsettles.filed (source_names_ok hnames))
    rw [List.forall_mem_singleton]
    rintro m ⟨⟩
    exact hkept

theorem Synced.regenerate {results : Outcomes} (h : Synced c disk.tree)
    (hclock : ∀ i, (env.clock i).IsKept) (honce : c.NamedOnce sources)
    (hr : RegeneratesTogether env c disk sources disk' c' results) : Synced c' disk'.tree := by
  obtain ⟨endings, hcalm, hends, rfl, -⟩ := together_ends c.ownRecord (own_records_apart honce) hr
  refine h.taken (keys_apart honce (fun he _ => he.source_names) hends) (fun e he m hm => ?_)
    (together_filed hcalm hends)
  obtain ⟨source, -, hend⟩ := mem_left hends he
  cases hend with
  | underived => cases hm
  | made _ _ hrecord =>
    cases hm
    rw [hrecord]
    exact hclock _

theorem Synced.save {result : Except Failure Unit} (h : Synced c disk.tree)
    (hs : c.save env disk = (disk', c', result)) : Synced c' disk'.tree := by
  obtain ⟨filings, hfiled, hwaiting, rfl, -⟩ :=
    save_filed (fun e he => (h.waiting e.1 (mem_waiting.mp he).2).1) hs
  have hmem {f : Filing} (hf : f ∈ filings) :
      c.manifest.get? (keyOf f.names) = some f.record ∧ keyOf f.names ∈ c.pending :=
    mem_waiting.mp (hwaiting ▸ List.mem_map_of_mem hf)
  refine ⟨hfiled.legible h.legible, ?_, fun key hkey => ?_, h.kept, fun key hkey => ?_⟩
  · have hnodup := c.waiting_nodup
    rw [← hwaiting, List.map_map] at hnodup
    exact hnodup.sublist (List.filter_sublist.map _)
  · obtain ⟨f, hf, rfl⟩ := List.mem_map.mp hkey
    have hf := List.mem_of_mem_filter hf
    exact ⟨⟨f.names, hfiled.sources f hf, rfl⟩, f.record, (hmem hf).1⟩
  · by_cases hpending : key ∈ c.pending
    · obtain ⟨-, r, hget⟩ := h.waiting key hpending
      obtain ⟨f, hf, hsaved, rfl, rfl⟩ := filing_of_waiting hwaiting hget hpending hkey
      exact hget.trans (hfiled.load_saved h.legible hf hsaved (h.kept _ _ hget)).symm
    · refine (h.found key hpending).trans (hfiled.load_other h.legible fun f hf _ heq => ?_).symm
      exact hpending (heq ▸ (hmem hf).2)

/-- What one cache can come to, from its opening on, if no one else writes records. Any write may fail;
other files may be changed by others, sources among them. -/
inductive Session (env : Environment) (root : String) (o : Options) : Disk → Cache → Prop
  | opened {disk : Disk} (hl : Legible (manifestPath root o) disk.tree) :
    Session env root o disk (openAt disk root o)
  | applied {disk disk' : Disk} {c c' : Cache} {d : Document} {source : String}
      {result : Except Failure Report} (h : Session env root o disk c)
      (houtside : ∀ names, c.sourceNames source = .ok names → c.Outside names)
      (ha : c.apply env disk d source = (disk', c', result)) : Session env root o disk' c'
  | regenerated {disk disk' : Disk} {c c' : Cache} {sources : List String} {results : Outcomes}
      (h : Session env root o disk c) (honce : c.NamedOnce sources)
      (hr : RegeneratesTogether env c disk sources disk' c' results) : Session env root o disk' c'
  | saved {disk disk' : Disk} {c c' : Cache} {result : Except Failure Unit}
      (h : Session env root o disk c) (hs : c.save env disk = (disk', c', result)) :
    Session env root o disk' c'
  | edited {disk : Disk} {c : Cache} {t : FileTree} (h : Session env root o disk c)
      (he : Edited (target (manifestPath root o)) disk.tree t) :
    Session env root o { disk with tree := t } c

theorem Session.synced (h : Session env root o disk c) (hclock : ∀ i, (env.clock i).IsKept) :
    Synced c disk.tree ∧ c.root = root ∧ c.options = o := by
  induction h with
  | opened hl => exact ⟨synced_open hl, rfl, rfl⟩
  | applied _ houtside ha ih =>
    obtain ⟨hsynced, rfl, rfl⟩ := ih
    obtain ⟨_, hturn⟩ := apply_turn houtside ha
    exact ⟨hsynced.apply hclock houtside ha, hturn.alike.root, hturn.alike.options⟩
  | @regenerated _ _ c _ _ _ _ honce hr ih =>
    obtain ⟨hsynced, rfl, rfl⟩ := ih
    have hsynced' := hsynced.regenerate hclock honce hr
    obtain ⟨endings, -, rfl, -⟩ := hr
    have hlike := take_all_alike c endings
    exact ⟨hsynced', hlike.root, hlike.options⟩
  | saved _ hs ih =>
    obtain ⟨hsynced, rfl, rfl⟩ := ih
    have hlike := save_alike hs
    exact ⟨hsynced.save hs, hlike.root, hlike.options⟩
  | edited _ he ih =>
    obtain ⟨hsynced, rfl, rfl⟩ := ih
    exact ⟨hsynced.left he.filed, rfl, rfl⟩

/-- Whether a saving fails to put the record for a key into place, once those before it are saved. -/
def SaveFails (env : Environment) (c : Cache) (disk : Disk) (key : String) : Prop :=
  ∃ before r after, c.waiting = before ++ (key, r) :: after ∧
    (c.persist env (c.persistAll env disk before).1 key r).2 = false

theorem mem_failed {waiting : List (String × SourceRecord)} {failed : List String}
    (hp : c.persistAll env disk waiting = (disk', failed)) :
    key ∈ failed ↔ ∃ before r after, waiting = before ++ (key, r) :: after ∧
      (c.persist env (c.persistAll env disk before).1 key r).2 = false := by
  induction waiting generalizing disk failed with
  | nil =>
    obtain ⟨-, rfl⟩ := Prod.mk.inj hp
    simp
  | cons e rest ih =>
    obtain ⟨first, held⟩ := e
    obtain ⟨disk₁, saved, others, hfirst, hrest, rfl⟩ := persist_all_cons hp
    have hstep (before : List (String × SourceRecord)) :
        (c.persistAll env disk ((first, held) :: before)).1 = (c.persistAll env disk₁ before).1 := by
      rw [persistAll, hfirst]
    have hmem : key ∈ (if saved then others else first :: others) ↔
        (key = first ∧ saved = false) ∨ key ∈ others := by
      cases saved <;> simp
    rw [hmem, ih hrest]
    constructor
    · rintro (⟨rfl, rfl⟩ | ⟨before, r, after, rfl, hfails⟩)
      · exact ⟨[], held, rest, rfl, congrArg Prod.snd hfirst⟩
      · exact ⟨(first, held) :: before, r, after, rfl, by rwa [hstep]⟩
    · rintro ⟨before, r, after, hsplit, hfails⟩
      cases before with
      | nil =>
        cases hsplit
        exact .inl ⟨rfl, (congrArg Prod.snd hfirst).symm.trans hfails⟩
      | cons e before =>
        cases hsplit
        exact .inr ⟨before, r, after, rfl, by rwa [hstep] at hfails⟩

theorem save_result {result : Except Failure Unit} (hs : c.save env disk = (disk', c', result)) :
    (∀ key, key ∈ c'.pending ↔ c.SaveFails env disk key) ∧ (result = .ok () ↔ c'.isSaved = true) := by
  obtain ⟨failed, hp, rfl⟩ := save_eq hs
  refine ⟨fun key => mem_failed hp, ?_⟩
  have hresult := congrArg (·.2.2) hs
  rw [save, ← waiting, hp] at hresult
  dsimp only at hresult
  rw [← hresult]
  cases failed <;> simp [isSaved]

/-- In every state of a session, the keys that are pending are known, and the record of every other known
key is on disk as it is known. When nothing is pending, opening the root anew finds what is known; and
saving leaves pending the keys whose records it could not write, and fails if there are any. -/
theorem pending_exact (hclock : ∀ i, (env.clock i).IsKept) (h : Session env root o disk c) :
    (∀ key ∈ c.pending, ∃ r, c.manifest.get? key = some r) ∧
    (∀ key r, c.manifest.get? key = some r → key ∉ c.pending →
      Manifest.loadRecord? disk.tree c.manifestDir key = some r) ∧
    (c.isSaved = true → (openAt disk root o).manifest = c.manifest) ∧
    ∀ disk' c' result, c.save env disk = (disk', c', result) →
      (∀ key, key ∈ c'.pending ↔ c.SaveFails env disk key) ∧
      (result = .ok () ↔ c'.isSaved = true) := by
  obtain ⟨hsynced, rfl, rfl⟩ := h.synced hclock
  refine ⟨fun key hkey => (hsynced.waiting key hkey).2, fun key r hget hkey => ?_, fun hsaved => ?_,
    fun _ _ _ => save_result⟩
  · rw [hsynced.found key hkey] at hget
    exact (Manifest.load_get hget).2
  · refine Manifest.ext_get fun key => (hsynced.found key fun hmem => ?_).symm
    rw [List.isEmpty_iff.mp hsaved] at hmem
    cases hmem

section Example

/-- The attempts to save the first record fail, and the clock stands still. -/
def stalled : Environment := ⟨fun i => decide (3 ≤ i ∧ i < 6), fun _ => ⟨0, 0⟩⟩

def unsavedEdit : Disk × Cache × Except Failure Report :=
  newUser.apply stalled ⟨{}, 0, 0⟩ shelf "a.dx"

def retriedSave : Disk × Cache × Except Failure Unit :=
  unsavedEdit.2.1.save stalled unsavedEdit.1

theorem nothing_legible (dir : String) : Legible dir {} := by
  have hempty : ∀ p, ({} : FileTree).contentAt? p = none := fun p => by cases p <;> rfl
  refine ⟨?_, fun file key content _ hcontent => ?_⟩
  · rintro file - ⟨_, hmem⟩
    cases hmem
  · rw [hempty] at hcontent
    cases hcontent

attribute [local irreducible] unsavedEdit retriedSave in
/-- A record that could not be saved with its source is saved later. -/
theorem pending_exact_stalled :
    (∀ i, (stalled.clock i).IsKept) ∧ Session stalled "/" {} unsavedEdit.1 unsavedEdit.2.1 ∧
    unsavedEdit.2.1.pending = ["a.dx"] ∧
    (∀ key, key ∈ retriedSave.2.1.pending ↔ unsavedEdit.2.1.SaveFails stalled unsavedEdit.1 key) ∧
    Session stalled "/" {} retriedSave.1 retriedSave.2.1 ∧ retriedSave.2.1.isSaved = true ∧
    (openAt retriedSave.1 "/" {}).manifest = retriedSave.2.1.manifest := by
  have hkept : (⟨0, 0⟩ : Instant).IsKept := ⟨by decide, .inl (by decide)⟩
  have hclock : ∀ i, (stalled.clock i).IsKept := fun _ => hkept
  have hedit : newUser.apply stalled ⟨{}, 0, 0⟩ shelf "a.dx" = unsavedEdit := by
    unfold unsavedEdit
    rfl
  have hsave : unsavedEdit.2.1.save stalled unsavedEdit.1 = retriedSave := by
    unfold retriedSave
    rfl
  have hpending : unsavedEdit.2.1.pending = ["a.dx"] := by
    unfold unsavedEdit
    decide +kernel
  have hsaved : retriedSave.2.1.isSaved = true := by
    unfold retriedSave unsavedEdit
    decide +kernel
  have hfirst : Session stalled "/" {} unsavedEdit.1 unsavedEdit.2.1 :=
    .applied (.opened (nothing_legible _)) (fun _ => outside_new_user) (hedit.trans rfl)
  have hsecond : Session stalled "/" {} retriedSave.1 retriedSave.2.1 :=
    .saved hfirst (hsave.trans rfl)
  obtain ⟨-, -, -, hfails⟩ := pending_exact hclock hfirst
  obtain ⟨-, -, hreopened, -⟩ := pending_exact hclock hsecond
  exact ⟨hclock, hfirst, hpending, (hfails _ _ _ (hsave.trans rfl)).1, hsecond, hsaved,
    hreopened hsaved⟩

end Example

end DocForms.Cache
