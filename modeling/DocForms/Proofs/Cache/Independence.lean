import DocForms.Proofs.Cache.Editing
import DocForms.Proofs.Cache.Endings
import Mathlib.Data.List.Perm.Basic

namespace DocForms.Cache
open DocForms.Path FileTree

attribute [local irreducible] Path.join

variable {env : Environment} {c c' : Cache} {disk disk' : Disk} {t₀ t : FileTree} {source : String}
  {sources order : List String} {names : SourceNames} {q : Place} {results : Outcomes}

/-- The files that are made of two sources are all different. -/
def Apart (c : Cache) (a b : String) : Prop :=
  ∀ names names', c.sourceNames a = .ok names → c.sourceNames b = .ok names' →
    (c.madePlaces names).Disjoint (c.madePlaces names')

theorem Apart.symm {a b : String} (h : c.Apart a b) : c.Apart b a :=
  fun names names' hb ha => (h names' names ha hb).symm

/-- The files that are made of the sources are all different. -/
def FilesApart (c : Cache) (sources : List String) : Prop :=
  sources.Pairwise c.Apart

/-- Whether no file is reported to be missing. -/
def isComplete : Except Failure Report → Bool
  | .error (.staleCache _ _) => false
  | _ => true

def AllWritten (results : Outcomes) : Prop :=
  ∀ e ∈ results, isComplete e.2 = true

/-- What is reported of a source when all its files were written. -/
def reportOf (c : Cache) (s : Derived) : Report :=
  ⟨c.sourcePath s.names, s.fingerprint,
    [⟨artifactPath c.options s.names .compact, .compact, Fingerprint.of s.text.toUTF8, s.fingerprint⟩,
      ⟨artifactPath c.options s.names .buffer, .buffer, Fingerprint.of s.buffer, s.fingerprint⟩]⟩

/-- What a source holds is not changed by the tasks, so that the same is made of it at any time. -/
theorem Calm.derive (h : Calm c sources t₀ t) (hrooted : t₀.IsRooted)
    (hfree : ∀ names, c.sourceNames source = .ok names → ¬c.MayWrite sources (c.sourcePlace names)) :
    c.deriveIn t source = c.deriveIn t₀ source := by
  rcases h.rooted with rfl | hroot
  · rfl
  cases hnames : c.sourceNames source with
  | error f => rw [deriveIn, deriveIn, derive_eq, derive_eq, hnames]; rfl
  | ok names =>
    have hin (u : FileTree) : c.deriveIn u source = c.derived names (u.read (c.sourcePath names)) := by
      rw [deriveIn, derive_eq, hnames]
      rfl
    have hsource := source_names_ok hnames
    have hsame : t.contentAt? (target (c.sourcePath names)) =
        t₀.contentAt? (target (c.sourcePath names)) := by
      rw [target_source hsource]
      exact h.others _ (hfree names hnames)
    rw [hin, hin]
    cases hread : t₀.read (c.sourcePath names) with
    | ok content => rw [read_keeps h.keeps hsame hread]
    | error fault =>
      cases hread' : t.read (c.sourcePath names) with
      | error fault' => rfl
      | ok content =>
        have := read_below hrooted hsource.ne_nil hsource.steps hroot hsame hread'
        rw [← keyOf, ← sourcePath, hread] at this
        cases this

theorem outside_free (houtside : c.Outside names) : ¬c.MayWrite sources (c.sourcePlace names) := by
  rintro ⟨source, -, other, -, hq⟩
  rcases mem_made_places.mp hq with ⟨format, heq⟩ | heq
  · exact houtside.ne_artifact format heq
  · exact houtside.ne_record heq

/-- How a source ends all of whose files could be written. -/
inductive Finished (c : Cache) (t₀ t : FileTree) (source : String) : Ending → Prop
  | failed {f : Failure} (hf : c.deriveIn t₀ source = .error f)
      (hkept : ∀ q, c.Touches source q → t.contentAt? q = t₀.contentAt? q) :
    Finished c t₀ t source (none, .error f)
  | made {s : Derived} {time : Instant} (hs : c.deriveIn t₀ source = .ok s)
      (hcompact : t.read (c.artifactFile s.names .compact) = .ok s.text.toUTF8)
      (hbuffer : t.read (c.artifactFile s.names .buffer) = .ok s.buffer)
      (hrecord : t.read (c.recordPath (keyOf s.names)) =
        .ok ((c.recordFor s time).storedText (keyOf s.names)).toUTF8) :
    Finished c t₀ t source (some (s.names, ⟨c.recordFor s time, true, []⟩), .ok (c.reportOf s))

theorem finished_of_ends {e : Ending} (h : Ends env c sources (c.Touches source) t₀ source t e)
    (hderive : ∀ u, Calm c sources t₀ u → c.deriveIn u source = c.deriveIn t₀ source)
    (hwritten : isComplete e.2 = true) : Finished c t₀ t source e := by
  cases h with
  | underived hcalm hf hkept =>
    exact .failed (hderive _ hcalm ▸ hf) fun q hq => hkept.untouched q hq nofun
  | @made u s made i compactDone bufferDone hcalm hs hrecord hstale hdid =>
    obtain ⟨r, saved, stale⟩ := made
    dsimp only at hrecord hstale hdid
    have hnames := (derive_in_ok hs).1
    have hsource := source_names_ok hnames
    have hnone : stale = [] := by
      by_contra hne
      dsimp only at hwritten
      rw [outcome, List.isEmpty_eq_false_iff.mpr hne] at hwritten
      cases hwritten
    have hdone : ∀ a ∈ c.attempts s r compactDone bufferDone saved, a.done = true := by
      intro a ha
      by_contra hfailed
      have hmem := mem_undone.mpr ⟨a, ha, Bool.not_eq_true _ ▸ hfailed, rfl⟩
      rw [← hstale, hnone] at hmem
      cases hmem
    have hread (a : Attempt) (ha : a ∈ c.attempts s r compactDone bufferDone saved)
        (hown : target a.path ∈ c.madePlaces s.names) : t.read a.path = .ok a.content :=
      hdid.written a ha ⟨_, hnames, hown⟩ (hdone a ha)
    have hsaved : saved = true := hdone (c.recordAttempt s.names r saved) (by simp [attempts])
    have hcompact := hread (c.artifactAttempt s.names .compact s.text.toUTF8 compactDone)
      (by simp [attempts]) (mem_made_places.mpr (.inl ⟨_, target_artifact_attempt hsource _ _ _⟩))
    have hbuffer := hread (c.artifactAttempt s.names .buffer s.buffer bufferDone)
      (by simp [attempts]) (mem_made_places.mpr (.inl ⟨_, target_artifact_attempt hsource _ _ _⟩))
    have hlast := hread (c.recordAttempt s.names r saved) (by simp [attempts])
      (mem_made_places.mpr (.inr (target_record_attempt hsource _ _)))
    dsimp only [artifactAttempt, recordAttempt] at hcompact hbuffer hlast
    subst hnone hsaved hrecord
    exact .made (hderive u hcalm ▸ hs) hcompact hbuffer hlast

theorem Finished.source_names {e : Ending} (h : Finished c t₀ t source e) {m : SourceNames × Published}
    (hm : m ∈ e.1) : c.sourceNames source = .ok m.1 := by
  cases h with
  | failed => cases hm
  | made hs =>
    cases hm
    exact (derive_in_ok hs).1

theorem finished_outcomes {endings : List Ending}
    (h : List.Forall₂ (Finished c t₀ t) sources endings) : sources.zip (endings.map Prod.snd) =
      sources.map fun source => (source, (c.deriveIn t₀ source).map c.reportOf) := by
  induction h with
  | nil => rfl
  | cons hfirst _ ih =>
    rw [List.map_cons, List.zip_cons_cons, List.map_cons, ih]
    cases hfirst with
    | failed hf => rw [hf]; rfl
    | made hs => rw [hs]; rfl

theorem finished_keys {endings : List Ending}
    (h : List.Forall₂ (Finished c t₀ t) sources endings) :
    (endings.filterMap fun e => e.1.map fun m => keyOf m.1) = sources.filterMap fun source =>
      (c.deriveIn t₀ source).toOption.map fun s => keyOf s.names := by
  induction h with
  | nil => rfl
  | cons hfirst _ ih =>
    rw [List.filterMap_cons, List.filterMap_cons, ih]
    cases hfirst with
    | failed hf => rw [hf]; rfl
    | made hs => rw [hs]; rfl

/-- Files that are told to be written were written for each of the sources. -/
theorem written_endings {R : String → Ending → Prop} {endings : List Ending}
    (h : List.Forall₂ R sources endings)
    (hwritten : AllWritten (sources.zip (endings.map Prod.snd))) :
    ∀ e ∈ endings, isComplete e.2 = true := by
  induction h with
  | nil => exact List.forall_mem_nil _
  | cons _ _ ih =>
    rw [List.map_cons, List.zip_cons_cons] at hwritten
    obtain ⟨hfirst, hrest⟩ := List.forall_mem_cons.mp hwritten
    exact List.forall_mem_cons.mpr ⟨hfirst, ih hrest⟩

/-- How sources have ended that were made again at the same time, if all files could be written. -/
structure AllFinished (c : Cache) (sources : List String) (t₀ t : FileTree) (endings : List Ending) :
    Prop where
  calm : Calm c sources t₀ t
  each : List.Forall₂ (Finished c t₀ t) sources endings
  apart : KeysApart endings

/-- Sources that were made again at the same time have all ended as they would end alone. -/
theorem all_finished (hrooted : disk.tree.IsRooted)
    (houtside : ∀ source ∈ sources, ∀ names, c.sourceNames source = .ok names → c.Outside names)
    (hapart : c.FilesApart sources)
    (h : RegeneratesTogether env c disk sources disk' c' results) (hwritten : AllWritten results) :
    ∃ endings, AllFinished c sources disk.tree disk'.tree endings ∧ c' = c.takeAll endings ∧
      results = sources.zip (endings.map Prod.snd) := by
  have hduties : sources.Pairwise fun a b =>
      ∀ q, (c.Touches a q → ¬c.Touches b q) ∧ (c.Touches b q → ¬c.Touches a q) := by
    refine hapart.imp fun {a b} hdisjoint q => ⟨?_, ?_⟩
    · rintro ⟨names, hnames, hq⟩ ⟨names', hnames', hq'⟩
      exact hdisjoint names names' hnames hnames' hq hq'
    · rintro ⟨names', hnames', hq'⟩ ⟨names, hnames, hq⟩
      exact hdisjoint names names' hnames hnames' hq hq'
  obtain ⟨endings, hcalm, hends, hc, hresults⟩ := together_ends c.Touches hduties h
  have hdone := written_endings hends (hresults ▸ hwritten)
  have hfinished : List.Forall₂ (Finished c disk.tree disk'.tree) sources endings := by
    obtain ⟨hlength, hzip⟩ := List.forall₂_iff_zip.mp hends
    refine List.forall₂_iff_zip.mpr ⟨hlength, fun {source e} hmem => ?_⟩
    obtain ⟨hsource, he⟩ := List.of_mem_zip hmem
    exact finished_of_ends (hzip hmem) (fun u hu => hu.derive hrooted fun names hnames =>
      outside_free (houtside source hsource names hnames)) (hdone e he)
  have honce : c.NamedOnce sources := hapart.imp fun hdisjoint names hnames hnames' =>
    hdisjoint names names hnames hnames' (mem_made_places.mpr (.inr rfl))
      (mem_made_places.mpr (.inr rfl))
  exact ⟨endings, ⟨hcalm, hfinished,
    keys_apart honce (fun he m hm => he.source_names hm) hfinished⟩, hc, hresults⟩

section Finished
variable {endings : List Ending}

/-- Only the files that are made of sources that can be read change. -/
theorem finished_others (hcalm : Calm c sources t₀ t)
    (h : List.Forall₂ (Finished c t₀ t) sources endings)
    (hq : ∀ source ∈ sources, ∀ s, c.deriveIn t₀ source = .ok s → q ∉ c.madePlaces s.names) :
    t.contentAt? q = t₀.contentAt? q := by
  by_cases hmay : c.MayWrite sources q
  · obtain ⟨source, hmem, htouches⟩ := hmay
    obtain ⟨e, -, he⟩ := mem_right h hmem
    cases he with
    | failed _ hkept => exact hkept q htouches
    | @made s _ hs =>
      obtain ⟨names, hnames, hplace⟩ := htouches
      obtain rfl : s.names = names := Except.ok.inj ((derive_in_ok hs).1.symm.trans hnames)
      exact absurd hplace (hq source hmem s hs)
  · exact hcalm.others q hmay

/-- A source that can be read has its files, and its record is known. -/
theorem finished_made (h : List.Forall₂ (Finished c t₀ t) sources endings)
    (hkeys : KeysApart endings) (hmem : source ∈ sources) {s : Derived}
    (hs : c.deriveIn t₀ source = .ok s) :
    t.read (c.artifactFile s.names .compact) = .ok s.text.toUTF8 ∧
    t.read (c.artifactFile s.names .buffer) = .ok s.buffer ∧
    ∃ time, t.read (c.recordPath (keyOf s.names)) =
        .ok ((c.recordFor s time).storedText (keyOf s.names)).toUTF8 ∧
      (c.takeAll endings).manifest.get? (keyOf s.names) = some (c.recordFor s time) := by
  obtain ⟨e, he, hfinished⟩ := mem_right h hmem
  cases hfinished with
  | failed hf => cases hs.symm.trans hf
  | @made s' time hs' hcompact hbuffer hrecord =>
    obtain rfl : s' = s := Except.ok.inj (hs'.symm.trans hs)
    exact ⟨hcompact, hbuffer, time, hrecord, (take_all_made hkeys he rfl).1⟩

/-- Nothing else is known than before. -/
theorem finished_unknown (h : List.Forall₂ (Finished c t₀ t) sources endings) {key : String}
    (hkey : ∀ source ∈ sources, ∀ s, c.deriveIn t₀ source = .ok s → key ≠ keyOf s.names) :
    (c.takeAll endings).manifest.get? key = c.manifest.get? key ∧
      (key ∈ (c.takeAll endings).pending ↔ key ∈ c.pending) := by
  refine take_all_other fun e he m hm => ?_
  obtain ⟨source, hmem, hfinished⟩ := mem_left h he
  cases hfinished with
  | failed => cases hm
  | made hs =>
    cases hm
    exact (hkey source hmem _ hs).symm

theorem finished_pending (h : List.Forall₂ (Finished c t₀ t) sources endings) :
    (c.takeAll endings).pending = c.pending.diff (sources.filterMap fun source =>
      (c.deriveIn t₀ source).toOption.map fun s => keyOf s.names) := by
  rw [← finished_keys h]
  refine take_all_saved fun e he m hm => ?_
  obtain ⟨source, -, hfinished⟩ := mem_left h he
  cases hfinished with
  | failed => cases hm
  | made =>
    cases hm
    rfl

end Finished

/-- What making the files of sources again does, if all files can be written. -/
structure Remakes (c : Cache) (disk : Disk) (sources : List String) (disk' : Disk) (c' : Cache)
    (results : Outcomes) : Prop where
  /-- The outcomes are in the order of the sources. -/
  outcomes : results = sources.map fun source => (source, (c.derive disk source).map c.reportOf)
  sources_kept : ∀ names, c.Outside names →
    disk'.tree.contentAt? (c.sourcePlace names) = disk.tree.contentAt? (c.sourcePlace names)
  others : ∀ q, (∀ source ∈ sources, ∀ s, c.derive disk source = .ok s → q ∉ c.madePlaces s.names) →
    disk'.tree.contentAt? q = disk.tree.contentAt? q
  /-- A source that cannot be read, decoded or encoded keeps its files and its record. -/
  failed : ∀ source ∈ sources, ∀ f names, c.derive disk source = .error f →
    c.sourceNames source = .ok names →
    (∀ q ∈ c.madePlaces names, disk'.tree.contentAt? q = disk.tree.contentAt? q) ∧
      c'.manifest.get? (keyOf names) = c.manifest.get? (keyOf names) ∧
      (keyOf names ∈ c'.pending ↔ keyOf names ∈ c.pending)
  /-- Any other source gets the forms of its document and a record of its bytes. -/
  made : ∀ source ∈ sources, ∀ names bytes d refs text buffer, c.sourceNames source = .ok names →
    disk.tree.read (c.sourcePath names) = .ok bytes → readSource bytes = .ok (d, refs) →
    Compact.write d refs = .ok text → Buffer.write d = .ok buffer →
    disk'.tree.read (c.artifactFile names .compact) = .ok text.toUTF8 ∧
    disk'.tree.read (c.artifactFile names .buffer) = .ok buffer ∧
    ∃ time, disk'.tree.read (c.recordPath (keyOf names)) = .ok
        ((recordOf c.options names (Fingerprint.of bytes) text buffer time).storedText
          (keyOf names)).toUTF8 ∧
      c'.manifest.get? (keyOf names) =
        some (recordOf c.options names (Fingerprint.of bytes) text buffer time)

/-- A record without the time at which it was made. -/
def timeless (r : SourceRecord) : Fingerprint × List Artifact :=
  (r.fingerprint, r.artifacts)

/-- Two files with records of one source that tell the same, up to the time; or the same file. -/
def SameRecord (key : String) (content content' : Option ByteArray) : Prop :=
  content = content' ∨ ∃ r r', timeless r = timeless r' ∧
    content = some (r.storedText key).toUTF8 ∧ content' = some (r'.storedText key).toUTF8

/-- Two ways to make the files of the same sources again have led to the same, up to the times. -/
structure Agree (c : Cache) (sources : List String) (disk : Disk) (c' : Cache) (results : Outcomes)
    (other : Disk) (other' : Cache) (results' : Outcomes) : Prop where
  files : ∀ q, (∀ source ∈ sources, ∀ names, c.sourceNames source = .ok names →
    q ≠ c.recordPlace names) → disk.tree.contentAt? q = other.tree.contentAt? q
  records : ∀ source ∈ sources, ∀ names, c.sourceNames source = .ok names →
    SameRecord (keyOf names) (disk.tree.contentAt? (c.recordPlace names))
      (other.tree.contentAt? (c.recordPlace names))
  known : ∀ key, (c'.manifest.get? key).map timeless = (other'.manifest.get? key).map timeless
  pending : ∀ key, key ∈ c'.pending ↔ key ∈ other'.pending
  outcomes : results.Perm results'

/-- Where the files of sources are apart, no place of one is a place of another. -/
theorem FilesApart.ne (hapart : c.FilesApart sources) {a b : String} (ha : a ∈ sources)
    (hb : b ∈ sources) {names names' : SourceNames} (hnames : c.sourceNames a = .ok names)
    (hnames' : c.sourceNames b = .ok names') (hne : a ≠ b) {q : Place}
    (hq : q ∈ c.madePlaces names) : q ∉ c.madePlaces names' := by
  have hsymm : Std.Symm c.Apart := ⟨fun _ _ => Apart.symm⟩
  exact fun hq' => List.Pairwise.forall hapart ha hb hne names names' hnames hnames' hq hq'

/-- Making sources again at the same time does to each of them what it would do alone. -/
theorem together_remakes (hrooted : disk.tree.IsRooted)
    (houtside : ∀ source ∈ sources, ∀ names, c.sourceNames source = .ok names → c.Outside names)
    (hapart : c.FilesApart sources)
    (h : RegeneratesTogether env c disk sources disk' c' results) (hwritten : AllWritten results) :
    Remakes c disk sources disk' c' results := by
  obtain ⟨endings, ⟨hcalm, hfinished, hkeys⟩, rfl, rfl⟩ :=
    all_finished hrooted houtside hapart h hwritten
  -- a source from which nothing was made has no file and no key of one from which something was
  have hfailed : ∀ source ∈ sources, ∀ f names, c.derive disk source = .error f →
      c.sourceNames source = .ok names → ∀ other ∈ sources, ∀ s, c.derive disk other = .ok s →
      ∀ q ∈ c.madePlaces names, q ∉ c.madePlaces s.names := by
    intro source hmem f names hf hnames other hother s hs q hq
    refine hapart.ne hmem hother hnames (derive_in_ok hs).1 ?_ hq
    rintro rfl
    rw [hs] at hf
    cases hf
  refine ⟨finished_outcomes hfinished, fun names hout => hcalm.others _ (outside_free hout),
    fun q hq => finished_others hcalm hfinished hq, ?_, ?_⟩
  · intro source hmem f names hf hnames
    refine ⟨fun q hq => finished_others hcalm hfinished fun other hother s hs =>
      hfailed source hmem f names hf hnames other hother s hs q hq,
      finished_unknown hfinished fun other hother s hs hkey => ?_⟩
    have hsame : names = s.names :=
      key_inj (source_names_ok hnames) (source_names_ok (derive_in_ok hs).1) hkey
    have hrecord : c.recordPlace names ∈ c.madePlaces names := mem_made_places.mpr (.inr rfl)
    exact hfailed source hmem f names hf hnames other hother s hs _ hrecord (hsame ▸ hrecord)
  · intro source hmem names bytes d refs text buffer hnames hread hbytes htext hbuffer
    obtain ⟨content, hcontent, hcompact⟩ := bind_eq_ok.mp hbytes
    have hs : c.deriveIn disk.tree source = .ok ⟨names, Fingerprint.of bytes, text, buffer⟩ :=
      derive_ok.mpr ⟨hnames, bytes, content, d, refs, hread, hcontent, hcompact, htext, hbuffer, rfl⟩
    exact finished_made hfinished hkeys hmem hs

section Agree
variable {endings endings' : List Ending} {t' : FileTree}
  (h : AllFinished c sources t₀ t endings) (horder : order.Perm sources)
  (h' : AllFinished c order t₀ t' endings')
include h horder h'

/-- Files that were not made of any source are the same as before both times. -/
theorem agree_others (hq : ∀ source ∈ sources, ∀ s, c.deriveIn t₀ source = .ok s →
      q ∉ c.madePlaces s.names) : t.contentAt? q = t'.contentAt? q := by
  rw [finished_others h.calm h.each hq,
    finished_others h'.calm h'.each fun source hs => hq source (horder.mem_iff.mp hs)]

theorem agree_files (hq : ∀ source ∈ sources, ∀ names, c.sourceNames source = .ok names →
      q ≠ c.recordPlace names) : t.contentAt? q = t'.contentAt? q := by
  by_cases hmade : ∃ source ∈ sources, ∃ s, c.deriveIn t₀ source = .ok s ∧
      ∃ format, q = c.artifactPlace s.names format
  · obtain ⟨source, hsource, s, hs, format, rfl⟩ := hmade
    obtain ⟨hcompact, hbuffer, -⟩ := finished_made h.each h.apart hsource hs
    obtain ⟨hcompact', hbuffer', -⟩ :=
      finished_made h'.each h'.apart (horder.mem_iff.mpr hsource) hs
    rw [← target_artifact (source_names_ok (derive_in_ok hs).1)]
    cases format with
    | compact => rw [(read_ok.mp hcompact).2, (read_ok.mp hcompact').2]
    | buffer => rw [(read_ok.mp hbuffer).2, (read_ok.mp hbuffer').2]
  · refine agree_others h horder h' fun source hsource s hs hplace => ?_
    rcases mem_made_places.mp hplace with ⟨format, heq⟩ | heq
    · exact hmade ⟨source, hsource, s, hs, format, heq⟩
    · exact hq source hsource s.names (derive_in_ok hs).1 heq

theorem agree_records (hnames : IsSource names) :
    SameRecord (keyOf names) (t.contentAt? (c.recordPlace names))
      (t'.contentAt? (c.recordPlace names)) := by
  by_cases hmade : ∃ source ∈ sources, ∃ s, c.deriveIn t₀ source = .ok s ∧ s.names = names
  · obtain ⟨source, hsource, s, hs, rfl⟩ := hmade
    obtain ⟨-, -, time, hrecord, -⟩ := finished_made h.each h.apart hsource hs
    obtain ⟨-, -, time', hrecord', -⟩ :=
      finished_made h'.each h'.apart (horder.mem_iff.mpr hsource) hs
    rw [← target_record hnames]
    exact .inr ⟨c.recordFor s time, c.recordFor s time', rfl, (read_ok.mp hrecord).2,
      (read_ok.mp hrecord').2⟩
  · refine .inl (agree_others h horder h' fun source hsource s hs hplace => ?_)
    rcases mem_made_places.mp hplace with ⟨format, heq⟩ | heq
    · exact artifact_place_ne_record_place heq.symm
    · have hs' := source_names_ok (derive_in_ok hs).1
      exact hmade ⟨source, hsource, s, hs, ((record_place_inj hnames hs').mp heq).symm⟩

theorem agree_known (key : String) : ((c.takeAll endings).manifest.get? key).map timeless =
    ((c.takeAll endings').manifest.get? key).map timeless := by
  by_cases hmade : ∃ source ∈ sources, ∃ s, c.deriveIn t₀ source = .ok s ∧ key = keyOf s.names
  · obtain ⟨source, hsource, s, hs, rfl⟩ := hmade
    obtain ⟨-, -, time, -, hget⟩ := finished_made h.each h.apart hsource hs
    obtain ⟨-, -, time', -, hget'⟩ :=
      finished_made h'.each h'.apart (horder.mem_iff.mpr hsource) hs
    rw [hget, hget']
    rfl
  · have hnone : ∀ source ∈ sources, ∀ s, c.deriveIn t₀ source = .ok s → key ≠ keyOf s.names :=
      fun source hsource s hs hkey => hmade ⟨source, hsource, s, hs, hkey⟩
    rw [(finished_unknown h.each hnone).1,
      (finished_unknown h'.each fun source hs => hnone source (horder.mem_iff.mp hs)).1]

end Agree

/-- Two ways in which the same sources can end are the same, up to the times. -/
theorem finished_agree {endings endings' : List Ending} {other : Disk}
    (h : AllFinished c sources t₀ disk.tree endings) (horder : order.Perm sources)
    (h' : AllFinished c order t₀ other.tree endings') :
    Agree c sources disk (c.takeAll endings) (sources.zip (endings.map Prod.snd)) other
      (c.takeAll endings') (order.zip (endings'.map Prod.snd)) := by
  refine ⟨fun q hq => agree_files h horder h' hq, fun source _ names hnames =>
    agree_records h horder h' (source_names_ok hnames), agree_known h horder h', fun key => ?_, ?_⟩
  · rw [finished_pending h.each, finished_pending h'.each, (horder.filterMap _).diff_left]
  · rw [finished_outcomes h.each, finished_outcomes h'.each]
    exact (horder.map _).symm

/-- Whenever the files of sources are made again at the same time, outside the directories of the cache,
with files that are all different and can be written: every source gets its files or stays as it was, no
source changes, and all is as if one source were done after another in any order, up to the times. -/
theorem regenerate_independent {env' : Environment} {results' : Outcomes} {start other : Disk}
    {other' : Cache} (hrooted : disk.tree.IsRooted)
    (houtside : ∀ source ∈ sources, ∀ names, c.sourceNames source = .ok names → c.Outside names)
    (hapart : c.FilesApart sources)
    (h : RegeneratesTogether env c disk sources disk' c' results) (hwritten : AllWritten results)
    (horder : order.Perm sources) (hstart : start.tree = disk.tree)
    (h' : c.regenerate env' start order = (other, other', results'))
    (hwritten' : AllWritten results') :
    Remakes c disk sources disk' c' results ∧ Agree c sources disk' c' results other other' results' := by
  refine ⟨together_remakes hrooted houtside hapart h hwritten, ?_⟩
  obtain ⟨endings, hfinished, rfl, rfl⟩ := all_finished hrooted houtside hapart h hwritten
  obtain ⟨endings', hfinished', rfl, rfl⟩ :=
    all_finished (hstart ▸ hrooted) (fun source hs => houtside source (horder.mem_iff.mp hs))
      ((horder.pairwise_iff Apart.symm).mpr hapart) (regenerate_together h') hwritten'
  rw [hstart] at hfinished'
  exact finished_agree hfinished horder hfinished'

section Example

/-- A cache over a source that can be read and one that does not exist. -/
def partCache : Cache := openAt looseDisk "/" {}

def partSources : List String := ["b.dx", "a.dx"]

/-- The task for the second source is done before that for the first one begins. -/
def lateFirst : Disk × Ending :=
  (partCache.job "a.dx").run steady looseDisk

def lateSecond : Disk × Ending :=
  (partCache.job "b.dx").run steady lateFirst.1

/-- One source after another, in the other order. -/
def inTurn : Disk × Cache × Outcomes :=
  partCache.regenerate steady looseDisk ["a.dx", "b.dx"]

theorem loose_rooted : looseDisk.tree.IsRooted := by
  intro p content hcontent
  have hput : (({} : FileTree).put ["a.dx"] (.file Conversion.looseText.toUTF8)).contentAt? p =
      some content := hcontent
  rw [content_put_file (by simp)] at hput
  split at hput
  · rename_i heq
    rw [heq]
    intro q hq
    rw [List.prefix_nil.mp hq]
    exact root_directory _
  · have : ({} : FileTree).contentAt? p = none := by
      cases p <;> rfl
    rw [this] at hput
    cases hput

theorem part_outside : ∀ source ∈ partSources, ∀ names, partCache.sourceNames source = .ok names →
    partCache.Outside names := by
  have hstep : IsStep partCache.options.manifestDir := manifest_is_step
  refine List.forall_mem_cons.mpr ⟨fun names h => ?_, List.forall_mem_singleton.mpr fun names h => ?_⟩
  · obtain rfl : ["b.dx"] = names := Except.ok.inj h
    exact outside_of_home hstep (by decide +kernel)
  · obtain rfl : ["a.dx"] = names := Except.ok.inj h
    exact outside_of_home hstep (by decide +kernel)

theorem part_apart : partCache.FilesApart partSources := by
  refine List.pairwise_pair.mpr fun names names' h h' => ?_
  obtain rfl : ["b.dx"] = names := Except.ok.inj h
  obtain rfl : ["a.dx"] = names' := Except.ok.inj h'
  have hdisjoint : ∀ q ∈ partCache.madePlaces ["b.dx"], q ∉ partCache.madePlaces ["a.dx"] := by
    decide +kernel
  exact fun q hq => hdisjoint q hq

attribute [local irreducible] lateFirst lateSecond in
theorem late_together : RegeneratesTogether steady partCache looseDisk partSources lateSecond.1
    (partCache.takeAll [lateSecond.2, lateFirst.2])
    [("b.dx", lateSecond.2.2), ("a.dx", lateFirst.2.2)] := by
  have hfirst : (partCache.job "a.dx").run steady looseDisk = lateFirst := by
    unfold lateFirst
    rfl
  have hsecond : (partCache.job "b.dx").run steady lateFirst.1 = lateSecond := by
    unfold lateSecond
    rfl
  refine ⟨[lateSecond.2, lateFirst.2], ?_, rfl, rfl⟩
  refine together_run (partCache.job "a.dx") [partCache.job "b.dx"] ?_
  rw [hfirst]
  refine together_run (partCache.job "b.dx") [] ?_
  rw [hsecond]
  exact .ended lateSecond.1 [lateSecond.2, lateFirst.2]

attribute [local irreducible] lateFirst lateSecond inTurn in
/-- The source that does not exist fails alone, whichever way the other one is made again. -/
theorem regenerate_independent_late :
    looseDisk.tree.IsRooted ∧
    (∀ source ∈ partSources, ∀ names, partCache.sourceNames source = .ok names →
      partCache.Outside names) ∧
    partCache.FilesApart partSources ∧
    RegeneratesTogether steady partCache looseDisk partSources lateSecond.1
      (partCache.takeAll [lateSecond.2, lateFirst.2])
      [("b.dx", lateSecond.2.2), ("a.dx", lateFirst.2.2)] ∧
    AllWritten [("b.dx", lateSecond.2.2), ("a.dx", lateFirst.2.2)] ∧
    ["a.dx", "b.dx"].Perm partSources ∧
    partCache.regenerate steady looseDisk ["a.dx", "b.dx"] = inTurn ∧ AllWritten inTurn.2.2 ∧
    Remakes partCache looseDisk partSources lateSecond.1
      (partCache.takeAll [lateSecond.2, lateFirst.2])
      [("b.dx", lateSecond.2.2), ("a.dx", lateFirst.2.2)] ∧
    Agree partCache partSources lateSecond.1 (partCache.takeAll [lateSecond.2, lateFirst.2])
      [("b.dx", lateSecond.2.2), ("a.dx", lateFirst.2.2)] inTurn.1 inTurn.2.1 inTurn.2.2 := by
  have hwritten : AllWritten [("b.dx", lateSecond.2.2), ("a.dx", lateFirst.2.2)] :=
    List.forall_mem_cons.mpr ⟨by decide +kernel, List.forall_mem_singleton.mpr (by decide +kernel)⟩
  have hturn : partCache.regenerate steady looseDisk ["a.dx", "b.dx"] = inTurn := by
    unfold inTurn
    rfl
  have hwritten' : AllWritten inTurn.2.2 := by
    unfold AllWritten
    decide +kernel
  have horder : ["a.dx", "b.dx"].Perm partSources := .swap "b.dx" "a.dx" []
  obtain ⟨hremakes, hagree⟩ := regenerate_independent loose_rooted part_outside part_apart
    late_together hwritten horder rfl (hturn.trans rfl) hwritten'
  exact ⟨loose_rooted, part_outside, part_apart, late_together, hwritten, horder, hturn, hwritten',
    hremakes, hagree⟩

end Example

end DocForms.Cache
