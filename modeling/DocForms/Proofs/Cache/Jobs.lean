import DocForms.Proofs.Cache.Runs
import DocForms.Proofs.Cache.Tasks

namespace DocForms.Cache
open DocForms.Path FileTree

attribute [local irreducible] Path.join

variable {env : Environment} {c c' : Cache} {disk disk' : Disk} {t t' : FileTree}
  {source : String} {sources : List String}

/-- Attempts to put a file into place until one succeeds. -/
def Task.writing {α : Type} (path : String) (content : ByteArray) (next : Bool → Task α) :
    Nat → Task α
  | 0 => next false
  | n + 1 => .attempt path content fun placed =>
    if placed then next true else writing path content next n

/-- Puts a file into place, within the attempts that the options allow. -/
def writing {α : Type} (c : Cache) (path : String) (content : ByteArray) (next : Bool → Task α) :
    Task α :=
  .writing path content next (max 1 c.options.writeAttempts)

/-- The attempts for the files of a source. -/
def attempts (c : Cache) (s : Derived) (r : SourceRecord) (compactDone bufferDone saved : Bool) :
    List Attempt :=
  [c.artifactAttempt s.names .compact s.text.toUTF8 compactDone,
    c.artifactAttempt s.names .buffer s.buffer bufferDone, c.recordAttempt s.names r saved]

def recordFor (c : Cache) (s : Derived) (time : Instant) : SourceRecord :=
  recordOf c.options s.names s.fingerprint s.text s.buffer time

/-- Writes the artifacts of a source, then its record. -/
def publishing {α : Type} (c : Cache) (s : Derived) (next : Published → Task α) : Task α :=
  c.writing (c.artifactFile s.names .compact) s.text.toUTF8 fun compactDone =>
  c.writing (c.artifactFile s.names .buffer) s.buffer fun bufferDone =>
  .clock fun time =>
  c.writing (c.recordPath (keyOf s.names)) ((c.recordFor s time).storedText (keyOf s.names)).toUTF8
    fun saved => next ⟨c.recordFor s time, saved,
      undone (c.attempts s (c.recordFor s time) compactDone bufferDone saved)⟩

/-- What there is to make of a source, by what was read of it. -/
def derived (c : Cache) (names : SourceNames) (found : Except FileFault ByteArray) :
    Except Failure Derived := do
  let bytes ← found.mapError fun _ => .io (c.sourcePath names)
  let (d, refs) ← Compact.readWithReferences (← sourceText bytes)
  let text ← Compact.write d refs
  let buffer ← Buffer.write d
  return ⟨names, Fingerprint.of bytes, text, buffer⟩

/-- How the task for a source ends: with what was made, if anything was, and the outcome. -/
abbrev Ending := Option (SourceNames × Published) × Except Failure Report

/-- The task for a source: it reads the source once and then writes its files. -/
def job (c : Cache) (source : String) : Task Ending :=
  match c.sourceNames source with
  | .error f => .done (none, .error f)
  | .ok names => .read (c.sourcePath names) fun found =>
    match c.derived names found with
    | .error f => .done (none, .error f)
    | .ok s => c.publishing s fun made => .done (some (s.names, made), c.outcome s.names made)

/-- Takes in what was made of a source. -/
def take (c : Cache) : Option (SourceNames × Published) → Cache
  | some (names, made) => c.adopt (keyOf names) made
  | none => c

def takeAll (c : Cache) (endings : List Ending) : Cache :=
  endings.foldl (fun c e => c.take e.1) c

/-- The files of all sources are made again at the same time: the tasks act in any order, and what they
made is taken in once all of them are done. -/
def RegeneratesTogether (env : Environment) (c : Cache) (disk : Disk) (sources : List String)
    (disk' : Disk) (c' : Cache) (results : Outcomes) : Prop :=
  ∃ endings, Together env disk (sources.map c.job) disk' endings ∧ c' = c.takeAll endings ∧
    results = sources.zip (endings.map Prod.snd)

/-- Endings for sources with keys that are all different. -/
def KeysApart (endings : List Ending) : Prop :=
  endings.Pairwise fun a b => ∀ m ∈ a.1, ∀ m' ∈ b.1, keyOf m.1 ≠ keyOf m'.1

theorem take_alike (c : Cache) (made : Option (SourceNames × Published)) : c.Alike (c.take made) := by
  cases made <;> exact ⟨rfl, rfl⟩

theorem take_all_alike (c : Cache) (endings : List Ending) : c.Alike (c.takeAll endings) := by
  induction endings generalizing c with
  | nil => exact .refl c
  | cons e rest ih => exact (take_alike c e.1).trans (ih (c.take e.1))

/-- What is known of a source that nothing was made of stays as it is. -/
theorem take_all_other {key : String} {endings : List Ending}
    (h : ∀ e ∈ endings, ∀ m ∈ e.1, keyOf m.1 ≠ key) :
    (c.takeAll endings).manifest.get? key = c.manifest.get? key ∧
      (key ∈ (c.takeAll endings).pending ↔ key ∈ c.pending) := by
  induction endings generalizing c with
  | nil => exact ⟨rfl, .rfl⟩
  | cons e rest ih =>
    obtain ⟨made, result⟩ := e
    obtain ⟨hget, hpending⟩ := ih (c := c.take made) fun e he => h e (List.mem_cons_of_mem _ he)
    change ((c.take made).takeAll rest).manifest.get? key = _ ∧
      (key ∈ ((c.take made).takeAll rest).pending ↔ _)
    rw [hget, hpending]
    cases made with
    | none => exact ⟨rfl, .rfl⟩
    | some m =>
      have hne : key ≠ keyOf m.1 := (h _ (List.mem_cons_self ..) m rfl).symm
      refine ⟨?_, ?_⟩
      · rw [take, adopt, Manifest.get_insert, if_neg hne]
      · rw [take, adopt]
        dsimp only
        split
        · exact List.mem_erase_of_ne hne
        · rw [List.mem_insert_iff, or_iff_right hne]

theorem take_nodup (made : Option (SourceNames × Published)) (h : c.pending.Nodup) :
    (c.take made).pending.Nodup := by
  cases made with
  | none => exact h
  | some m =>
    rw [take, adopt]
    dsimp only
    split
    · exact h.erase _
    · exact h.insert

theorem take_all_nodup (endings : List Ending) (h : c.pending.Nodup) :
    (c.takeAll endings).pending.Nodup := by
  induction endings generalizing c with
  | nil => exact h
  | cons e rest ih => exact ih (take_nodup e.1 h)

/-- What was made of a source is known afterwards, and it is pending unless its record was saved. -/
theorem take_all_made {endings : List Ending} (hapart : KeysApart endings) {e : Ending}
    (he : e ∈ endings) {m : SourceNames × Published} (hm : m ∈ e.1) :
    (c.takeAll endings).manifest.get? (keyOf m.1) = some m.2.record ∧
      (c.pending.Nodup → (keyOf m.1 ∈ (c.takeAll endings).pending ↔ m.2.saved = false)) := by
  induction endings generalizing c with
  | nil => cases he
  | cons first rest ih =>
    obtain ⟨hfirst, hrest⟩ := List.pairwise_cons.mp hapart
    rcases List.mem_cons.mp he with rfl | he
    · obtain ⟨made, result⟩ := e
      obtain rfl : made = some m := hm
      obtain ⟨hget, hpending⟩ := take_all_other (c := c.take (some m))
        fun e he m' hm' => (hfirst e he m rfl m' hm').symm
      change ((c.take (some m)).takeAll rest).manifest.get? _ = _ ∧
        (_ → (_ ∈ ((c.take (some m)).takeAll rest).pending ↔ _))
      rw [hget, hpending, take, adopt]
      refine ⟨Manifest.get_insert_self .., fun hnodup => ?_⟩
      cases m.2.saved with
      | true => simpa using hnodup.not_mem_erase
      | false => simp
    · obtain ⟨hget, hpending⟩ := ih (c := c.take first.1) hrest he
      exact ⟨hget, fun hnodup => hpending (take_nodup first.1 hnodup)⟩

/-- Where all records were saved, the keys of the sources are pending no longer. -/
theorem take_all_saved {endings : List Ending} (h : ∀ e ∈ endings, ∀ m ∈ e.1, m.2.saved = true) :
    (c.takeAll endings).pending =
      c.pending.diff (endings.filterMap fun e => e.1.map fun m => keyOf m.1) := by
  induction endings generalizing c with
  | nil => rfl
  | cons e rest ih =>
    obtain ⟨made, result⟩ := e
    have hrest := ih (c := c.take made) fun e he => h e (List.mem_cons_of_mem _ he)
    change ((c.take made).takeAll rest).pending = _
    rw [hrest]
    cases made with
    | none => rfl
    | some m =>
      have hsaved : m.2.saved = true := h _ (List.mem_cons_self ..) m rfl
      rw [List.filterMap_cons_some (by rfl), List.diff_cons, take, adopt]
      dsimp only
      rw [hsaved, if_pos rfl]

theorem run_writing {α : Type} (path : String) (content : ByteArray) (next : Bool → Task α) (n : Nat) :
    (Task.writing path content next n).run env disk =
      (next (disk.writeWithin env path content n).2).run env
        (disk.writeWithin env path content n).1 := by
  induction n generalizing disk with
  | zero => rfl
  | succ n ih =>
    rw [Task.writing, Task.run, Disk.writeWithin]
    rcases disk.tryWrite env path content with ⟨after, placed⟩
    cases placed with
    | true => rfl
    | false => exact ih

theorem run_write {α : Type} (path : String) (content : ByteArray) (next : Bool → Task α) :
    (c.writing path content next).run env disk =
      (next (c.write env disk path content).2).run env (c.write env disk path content).1 :=
  run_writing path content next _

theorem run_publishing {α : Type} (s : Derived) (next : Published → Task α) :
    (c.publishing s next).run env disk =
      (next (c.publish env disk s.names s.fingerprint s.text s.buffer).2).run env
        (c.publish env disk s.names s.fingerprint s.text s.buffer).1 := by
  have hartifact (format : ArtifactFormat) :
      join c.root (artifactPath c.options s.names format) = c.artifactFile s.names format := rfl
  rw [publish_eq, publishing, run_write]
  simp only [outputs, write_outputs_cons, writeOutputs, hartifact]
  generalize c.write env disk (c.artifactFile s.names .compact) s.text.toUTF8 = first
  obtain ⟨disk₁, compactDone⟩ := first
  dsimp only
  rw [run_write]
  generalize c.write env disk₁ (c.artifactFile s.names .buffer) s.buffer = second
  obtain ⟨disk₂, bufferDone⟩ := second
  dsimp only
  rw [Task.run, Disk.now]
  dsimp only
  rw [run_write, persist, recordFor]
  generalize c.write env { disk₂ with readings := disk₂.readings + 1 } _ _ = third
  obtain ⟨disk₃, saved⟩ := third
  cases compactDone <;> cases bufferDone <;> cases saved <;> rfl

theorem derive_eq : c.derive disk source =
    (c.sourceNames source).bind fun names => c.derived names (disk.tree.read (c.sourcePath names)) :=
  rfl

/-- Making the files of one source again is its task, undisturbed. -/
theorem regenerate_one_run : c.regenerateOne env disk source =
    let (disk', ending) := (c.job source).run env disk
    (disk', c.take ending.1, ending.2) := by
  rw [regenerateOne, derive_eq, job]
  cases hnames : c.sourceNames source with
  | error f => rfl
  | ok names =>
    dsimp only [Except.bind]
    rw [Task.run]
    cases hs : c.derived names (disk.tree.read (c.sourcePath names)) with
    | error f => rfl
    | ok s =>
      dsimp only
      rw [run_publishing]
      rfl

theorem Alike.job (h : c.Alike c') : c'.job = c.job := by
  obtain ⟨root, options, m, pending⟩ := c
  obtain ⟨root', options', m', pending'⟩ := c'
  obtain ⟨rfl, rfl⟩ := h
  rfl

theorem regenerate_together {results : Outcomes}
    (h : c.regenerate env disk sources = (disk', c', results)) :
    RegeneratesTogether env c disk sources disk' c' results := by
  induction sources generalizing c disk results with
  | nil =>
    obtain ⟨rfl, hc⟩ := Prod.mk.inj h
    obtain ⟨rfl, rfl⟩ := Prod.mk.inj hc
    exact ⟨[], .ended disk [], rfl, rfl⟩
  | cons source rest ih =>
    obtain ⟨disk₁, c₁, result, others, hfirst, hrest, rfl⟩ := regenerate_cons h
    rw [regenerate_one_run] at hfirst
    obtain ⟨rfl, hc⟩ := Prod.mk.inj hfirst
    obtain ⟨rfl, rfl⟩ := Prod.mk.inj hc
    obtain ⟨endings, htogether, rfl, rfl⟩ := ih hrest
    rw [(take_alike c _).job] at htogether
    exact ⟨_ :: endings,
      together_run (c.job source) [] (together_after_done _ htogether), rfl, rfl⟩

end DocForms.Cache
