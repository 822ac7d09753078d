import DocForms.Proofs.Cache.Checking
import DocForms.Proofs.Cache.Runs

namespace DocForms.Cache
open DocForms.Path FileTree

attribute [local irreducible] Path.join

variable {env : Environment} {c c' : Cache} {disk disk' : Disk} {d : Document} {source : String}
  {names : SourceNames} {text : String} {buffer : ByteArray} {r : SourceRecord}

/-- What is to be in the files of a source to which a document is written: its text with the references
that the source held, its buffer, and the record of both. -/
structure Renews (env : Environment) (c : Cache) (disk : Disk) (d : Document) (source : String)
    (names : SourceNames) (text : String) (buffer : ByteArray) (r : SourceRecord) : Prop where
  named : c.sourceNames source = .ok names
  buffered : Buffer.write d = .ok buffer
  composed : ∃ existing, disk.readExisting (c.sourcePath names) = .ok existing ∧
    Compact.write d (carriedReferences existing) = .ok text
  record : r =
    recordOf c.options names (Fingerprint.of text.toUTF8) text buffer (env.clock disk.readings)

/-- The source and its files hold what is new. -/
structure Complete (c : Cache) (names : SourceNames) (text : String) (buffer : ByteArray)
    (r : SourceRecord) (disk' : Disk) : Prop where
  source : disk'.tree.read (c.sourcePath names) = .ok text.toUTF8
  files : ∀ f ∈ c.filesOf names text buffer r, disk'.tree.read f.1 = .ok f.2

/-- The source holds what is new. Some of its files are listed; exactly these hold what they held before,
and the others hold what is new. -/
structure Incomplete (c : Cache) (names : SourceNames) (text : String) (buffer : ByteArray)
    (r : SourceRecord) (disk disk' : Disk) (stale : List String) : Prop where
  source : disk'.tree.read (c.sourcePath names) = .ok text.toUTF8
  some_stale : stale ≠ []
  listed : ∀ path ∈ stale, path ∈ (c.filesOf names text buffer r).map Prod.fst
  files : ∀ f ∈ c.filesOf names text buffer r,
    if f.1 ∈ stale then disk'.tree.contentAt? (target f.1) = disk.tree.contentAt? (target f.1)
    else disk'.tree.read f.1 = .ok f.2

/-- Wherever checking gives a report, each artifact listed is stale in it, unless it held what is new
before. This is so if the record on disk is earlier than the new one, and the artifact held nothing else
with the fingerprint of what is new. -/
def FoundStale (c : Cache) (names : SourceNames) (text : String) (buffer : ByteArray)
    (r : SourceRecord) (disk disk' : Disk) (c' : Cache) (stale : List String) : Prop :=
  (∀ content held, disk.tree.contentAt? (c.recordPlace names) = some content →
    SourceRecord.readStored? (keyOf names) content = some held → r.isNewerThan held = true) →
  ∀ report, c'.verify disk' = .ok report → ∀ format, c.artifactFile names format ∈ stale →
    (∀ old, disk.tree.contentAt? (c.artifactPlace names format) = some old →
      Fingerprint.of old = Fingerprint.of (formOf text buffer format) →
      old = formOf text buffer format) →
    c.artifactFile names format ∈ report.stale ∨
      disk.tree.contentAt? (c.artifactPlace names format) = some (formOf text buffer format)

section Settled
variable {bytes : ByteArray} {made : Published}
  (h : Settles env c disk disk' names bytes text buffer made)
include h

theorem settled_incomplete (hbytes : bytes = text.toUTF8) (hstale : made.stale ≠ []) :
    Incomplete c names text buffer made.record disk disk' made.stale := by
  subst hbytes
  refine ⟨h.source, hstale, h.makes.stale, fun f hf => ?_⟩
  obtain ⟨hdone, hkept⟩ := h.makes.files f hf
  split
  · rename_i hlisted
    exact hkept hlisted
  · rename_i hlisted
    exact hdone hlisted

theorem settled_found_stale (hsource : IsSource names) (m : Manifest) :
    FoundStale c names text buffer made.record disk disk'
      (({ c with manifest := m } : Cache).adopt (keyOf names) made) made.stale := by
  intro hearlier report hreport format hlisted hcollide
  obtain ⟨time, hcurrent⟩ := current_settled h m hsource fun _ => hearlier
  have htracked := tracked_settled h m hcurrent format
  cases hholds : holds disk' (c.artifactFile names format)
      (Fingerprint.of (formOf text buffer format)) with
  | false =>
    rw [hholds] at htracked
    exact .inl ((mem_stale hreport).mpr htracked)
  | true =>
    obtain ⟨old, hread, hsame⟩ := holds_iff.mp hholds
    have hold := (read_ok.mp hread).2
    have hkept := (h.makes.files _ (artifact_mem_files names text buffer made.record format)).2 hlisted
    rw [hkept, target_artifact hsource] at hold
    rw [hold, hcollide old hold hsame]
    exact .inr rfl

end Settled

/-- What an outcome of writing a document says about the files: all hold what is new, or those listed are
as they were and are found stale, or no file changed. -/
def Accounts (env : Environment) (c : Cache) (disk : Disk) (d : Document) (source : String)
    (disk' : Disk) (c' : Cache) : Except Failure Report → Prop
  | .ok _ => ∃ names text buffer r, Renews env c disk d source names text buffer r ∧
      Complete c names text buffer r disk'
  | .error (.staleCache path stale) => ∃ names text buffer r,
      Renews env c disk d source names text buffer r ∧ path = c.sourcePath names ∧
      Incomplete c names text buffer r disk disk' stale ∧
      FoundStale c names text buffer r disk disk' c' stale
  | .error f => IsRefusal f ∧ ∀ q, disk'.tree.contentAt? q = disk.tree.contentAt? q

theorem accounts_refusal {f : Failure} (hf : IsRefusal f)
    (hsame : ∀ q, disk'.tree.contentAt? q = disk.tree.contentAt? q) :
    Accounts env c disk d source disk' c' (.error f) := by
  cases f with
  | staleCache => cases hf
  | _ => exact ⟨hf, hsame⟩

theorem accounts_settled {made : Published} (m : Manifest)
    (hrenews : Renews env c disk d source names text buffer made.record)
    (h : Settles env c disk disk' names text.toUTF8 text buffer made) :
    Accounts env c disk d source disk'
      (({ c with manifest := m } : Cache).adopt (keyOf names) made) (c.outcome names made) := by
  by_cases hstale : made.stale = []
  · have houtcome : c.outcome names made =
        .ok ⟨c.sourcePath names, made.record.fingerprint, made.record.artifacts⟩ := by
      rw [outcome, hstale]
      rfl
    rw [houtcome]
    exact ⟨names, text, buffer, made.record, hrenews, h.source,
      fun f hf => (h.makes.files f hf).1 (by simp [hstale])⟩
  · have houtcome : c.outcome names made =
        .error (.staleCache (c.sourcePath names) made.stale) := by
      rw [outcome]
      exact if_neg (by rwa [List.isEmpty_iff])
    rw [houtcome]
    exact ⟨names, text, buffer, made.record, hrenews, rfl, settled_incomplete h rfl hstale,
      settled_found_stale h (source_names_ok hrenews.named) m⟩

/-- Whatever the files are and whichever attempts to write fail: writing a document is refused and changes
no file, or the source and all its files hold what is new, or the source does and the outcome lists
exactly those of its files that are as they were. Artifacts listed are found stale when the cache is
checked. -/
theorem apply_all_or_reported {result : Except Failure Report}
    (houtside : ∀ names, c.sourceNames source = .ok names → c.Outside names)
    (h : c.apply env disk d source = (disk', c', result)) :
    Accounts env c disk d source disk' c' result := by
  have happlied := apply_applied env c disk d source
  rw [h] at happlied
  cases happlied with
  | unprepared hf => exact accounts_refusal (prepare_fails _ hf) fun _ => rfl
  | refused hp hf => exact accounts_refusal (compose_fails _ _ hf) fun _ => rfl
  | @unwritten p text _ hp htext hwrite =>
    obtain ⟨hnames, -, -⟩ := prepare_ok.mp hp
    exact accounts_refusal trivial (source_wrote (source_names_ok hnames) hwrite).1.unchanged
  | @written p text disk₁ _ made hp htext hwrite hpublish =>
    obtain ⟨hnames, hbuffer, hexisting⟩ := prepare_ok.mp hp
    have htext' := (compose_ok.mp htext).2
    have hsettles := settles_of_written (houtside _ hnames) hp htext' hwrite hpublish
    obtain ⟨m, hm⟩ := refresh_eq c disk (keyOf p.names)
    rw [hm]
    exact accounts_settled m ⟨hnames, hbuffer, ⟨_, hexisting, htext'⟩, hsettles.record⟩ hsettles

section Example

/-- All attempts to write are refused but the first. -/
def onceOnly : Environment := ⟨fun i => 0 < i, fun i => ⟨i, 0⟩⟩

def loneWrite : Disk × Cache × Except Failure Report :=
  newUser.apply onceOnly ⟨{}, 0, 0⟩ shelf "a.dx"

def allFiles : List String :=
  ["/.dx/cache/a.llm", "/.dx/cache/a.machine", "/.dx/cache/manifest/a.dx.json"]

/-- Where only the source was written, all its files are listed. -/
theorem apply_all_or_reported_source :
    (∀ names, newUser.sourceNames "a.dx" = .ok names → newUser.Outside names) ∧
    newUser.apply onceOnly ⟨{}, 0, 0⟩ shelf "a.dx" =
      (loneWrite.1, loneWrite.2.1, .error (.staleCache "/a.dx" allFiles)) ∧
    Accounts onceOnly newUser ⟨{}, 0, 0⟩ shelf "a.dx" loneWrite.1 loneWrite.2.1
      (.error (.staleCache "/a.dx" allFiles)) := by
  have hresult : loneWrite.2.2 = .error (.staleCache "/a.dx" allFiles) := by decide +kernel
  have hwrite : newUser.apply onceOnly ⟨{}, 0, 0⟩ shelf "a.dx" =
      (loneWrite.1, loneWrite.2.1, .error (.staleCache "/a.dx" allFiles)) := by
    rw [← hresult]
    rfl
  exact ⟨fun _ => outside_new_user, hwrite,
    apply_all_or_reported (fun _ => outside_new_user) hwrite⟩

/-- A file stands where the directory of the artifacts is to be. -/
def blocked : Disk :=
  ⟨⟨[([".dx"], .file ByteArray.empty)]⟩, 0, 0⟩

def blockedUser : Cache := openAt blocked "/" {}

def blockedWrite : Disk × Cache × Except Failure Report :=
  blockedUser.apply steady blocked shelf "a.dx"

/-- Where the directory of the artifacts cannot be listed, checking gives no report: artifacts that were
listed when the source was written, and that were never there, are not found stale. -/
theorem blocked_not_found_stale :
    blockedWrite.2.2 = .error (.staleCache "/a.dx" allFiles) ∧
    blockedUser.Outside ["a.dx"] ∧
    blocked.tree.contentAt? (blockedUser.recordPlace ["a.dx"]) = none ∧
    (∀ format, blockedUser.artifactFile ["a.dx"] format ∈ allFiles ∧
      blocked.tree.contentAt? (blockedUser.artifactPlace ["a.dx"] format) = none) ∧
    blockedWrite.2.1.verify blockedWrite.1 = .error (.io "/.dx/cache") := by
  refine ⟨by decide +kernel, outside_of_home manifest_is_step (by decide +kernel),
    by decide +kernel, ?_, ?_⟩
  · intro format
    cases format with
    | compact => exact ⟨by decide +kernel, by decide +kernel⟩
    | buffer => exact ⟨by decide +kernel, by decide +kernel⟩
  · decide +kernel

end Example

end DocForms.Cache
