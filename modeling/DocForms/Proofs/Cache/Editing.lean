import DocForms.Proofs.Cache.Runs
import DocForms.Proofs.Conversion

namespace DocForms.Cache
open DocForms.Path FileTree

attribute [local irreducible] Path.join

variable {env : Environment} {c : Cache} {disk disk' : Disk} {d : Document} {refs : References}
  {source root : String} {o : Options} {r : Registry} {bytes : ByteArray}

/-- The document and the references that the bytes of a source hold. -/
def readSource (bytes : ByteArray) : Except Failure (Document × References) := do
  Compact.readWithReferences (← sourceText bytes)

/-- The source is as its record says, if it has one, and no file of the cache. -/
structure Untouched (c : Cache) (disk : Disk) (names : SourceNames) (bytes : ByteArray) : Prop where
  outside : c.Outside names
  content : disk.tree.read (c.sourcePath names) = .ok bytes
  record : ∀ held, Manifest.loadRecord? disk.tree c.manifestDir (keyOf names) = some held →
    held.fingerprint = Fingerprint.of bytes

theorem render_ok {sheet : String} : Conversion.renderForEditing r bytes = .ok sheet ↔
    ∃ d refs, readSource bytes = .ok (d, refs) ∧ Sheet.write r {} d = .ok sheet := by
  simp only [Conversion.renderForEditing, Conversion.compactToSheet, readSource, Compact.read,
    bind_eq_ok, map_eq_ok, Prod.exists]
  constructor
  · rintro ⟨text, htext, d, ⟨e, refs, hread, rfl⟩, hsheet⟩
    exact ⟨e, refs, ⟨text, htext, hread⟩, hsheet⟩
  · rintro ⟨d, refs, ⟨text, htext, hread⟩, hsheet⟩
    exact ⟨text, htext, d, ⟨d, refs, hread, rfl⟩, hsheet⟩

theorem carried_references (h : readSource bytes = .ok (d, refs)) :
    carriedReferences (some bytes) = refs := by
  rw [readSource] at h
  simp only [carriedReferences, h]

/-- A source that was written holds what was to be written. -/
theorem read_written {text : String} (h : Compact.write d refs = .ok text) :
    readSource text.toUTF8 = .ok (d, refs) := by
  rw [readSource, sourceText, Text.decodeUtf8, from_utf8]
  exact Compact.read_of_write h

/-- A cache that was just opened knows a source by the record on disk only. -/
theorem opened_get {held : SourceRecord} {key : String}
    (h : ((openAt disk root o).refresh disk key).manifest.get? key = some held) :
    Manifest.loadRecord? disk.tree (openAt disk root o).manifestDir key = some held := by
  rw [refresh] at h
  split at h
  · rename_i loaded hload
    dsimp only at h
    rw [Manifest.get_merge, if_pos rfl] at h
    cases Manifest.later_cases ((openAt disk root o).manifest.get? key) loaded with
    | inl heq =>
      rw [heq] at h
      exact hload.trans h
    | inr heq => exact (Manifest.load_get (heq.trans h)).2
  · exact (Manifest.load_get h).2

/-- Where the known record fits what a source holds, no conflict stops its new text. -/
theorem compose_untouched {p : Prepared} (hexisting : p.existing = some bytes)
    (hknown : ∀ held, c.manifest.get? (keyOf p.names) = some held →
      held.fingerprint = Fingerprint.of bytes) :
    c.compose d p = Compact.write d (carriedReferences (some bytes)) := by
  have hcheck : c.checkConflict p.names p.existing = .ok () := by
    cases hresult : c.checkConflict p.names p.existing with
    | ok _ => rfl
    | error f =>
      obtain ⟨held, hget, hdiffer, -⟩ := check_conflict_error.mp hresult
      simp [hexisting, hknown held hget] at hdiffer
  rw [compose, hcheck, ok_bind, hexisting]

/-- A failure that is neither a fault in a text nor a conflict. -/
def SparesText : Failure → Prop
  | .parse _ _ | .conflict _ _ _ => False
  | _ => True

theorem IsEncoding.spares {f : Failure} (h : IsEncoding f) : SparesText f := by
  obtain ⟨_, rfl⟩ := h
  trivial

theorem prepare_spares : FailsOnly SparesText (c.prepare disk d source) := by
  have hnames : FailsOnly SparesText (c.sourceNames source) := by
    intro f h
    rw [source_names_error h]
    trivial
  exact hnames.bind fun _ => (buffer_write_fails.imp fun _ => IsEncoding.spares).bind fun _ =>
    FailsOnly.bind (.map_error _ fun _ => trivial) fun _ => .ok _

theorem outcome_spares (names : SourceNames) (made : Published) :
    FailsOnly SparesText (c.outcome names made) := by
  rw [outcome]
  split
  · exact .ok _
  · exact .error trivial

/-- The source at `path` says what it said before. If it was written, it is the compact text of that;
otherwise it is the same to the byte. -/
def StillSays (path : String) (bytes : ByteArray) (d : Document) (refs : References) (disk' : Disk)
    (result : Except Failure Report) : Prop :=
  ∃ bytes', disk'.tree.read path = .ok bytes' ∧ readSource bytes' = .ok (d, refs) ∧
    if settles result then ∃ text, Compact.write d refs = .ok text ∧ bytes' = text.toUTF8
    else bytes' = bytes

theorem still_says_kept {path : String} {f : Failure} (hread : disk'.tree.read path = .ok bytes)
    (hbytes : readSource bytes = .ok (d, refs)) (hf : Unsettled f) :
    StillSays path bytes d refs disk' (.error f) := by
  refine ⟨bytes, hread, hbytes, ?_⟩
  rw [if_neg (by simp [show settles (.error f) = false from hf])]

theorem still_says_written {path text : String} {result : Except Failure Report}
    (hread : disk'.tree.read path = .ok text.toUTF8) (htext : Compact.write d refs = .ok text)
    (hresult : settles result = true) : StillSays path bytes d refs disk' result := by
  refine ⟨text.toUTF8, hread, read_written htext, ?_⟩
  rw [if_pos hresult]
  exact ⟨text, htext, rfl⟩

/-- Writing the document of a source back to it, in a cache that was just opened. -/
theorem apply_preserves {c' : Cache} {result : Except Failure Report} (hc : c = openAt disk root o)
    (huntouched : ∀ names, c.sourceNames source = .ok names → c.Untouched disk names bytes)
    (hbytes : readSource bytes = .ok (d, refs))
    (h : c.apply env disk d source = (disk', c', result)) :
    FailsOnly SparesText result ∧ ∀ names, c.sourceNames source = .ok names →
      StillSays (c.sourcePath names) bytes d refs disk' result := by
  have hcompose {p : Prepared} (hp : c.prepare disk d source = .ok p) :
      (c.refresh disk (keyOf p.names)).compose d p = Compact.write d refs := by
    obtain ⟨hnames, -, hexisting⟩ := prepare_ok.mp hp
    have hsource := huntouched _ hnames
    rw [Disk.readExisting, hsource.content] at hexisting
    rw [compose_untouched (Except.ok.inj hexisting).symm fun held hget =>
      hsource.record held (hc ▸ opened_get (hc ▸ hget)), carried_references hbytes]
  have happlied := apply_applied env c disk d source
  rw [h] at happlied
  cases happlied with
  | unprepared hf =>
    exact ⟨.error (prepare_spares _ hf), fun names hnames =>
      still_says_kept (huntouched _ hnames).content hbytes
        (unsettled_of_refusal (prepare_fails _ hf))⟩
  | @refused p f hp hf =>
    rw [hcompose hp] at hf
    have hencoding := compact_write_fails _ _ hf
    exact ⟨.error hencoding.spares, fun names hnames =>
      still_says_kept (huntouched _ hnames).content hbytes
        (unsettled_of_refusal hencoding.refusal)⟩
  | @unwritten p text _ hp htext hwrite =>
    refine ⟨.error trivial, fun names hnames => still_says_kept ?_ hbytes rfl⟩
    obtain ⟨hwrote, -⟩ := source_wrote (source_names_ok (prepare_ok.mp hp).1) hwrite
    exact read_keeps hwrote.keeps (hwrote.unchanged _) (huntouched _ hnames).content
  | @written p text disk₁ _ made hp htext hwrite hpublish =>
    refine ⟨outcome_spares _ _, fun names hnames => ?_⟩
    obtain ⟨hsame, -, -⟩ := prepare_ok.mp hp
    obtain rfl : names = p.names := Except.ok.inj (hnames.symm.trans hsame)
    rw [hcompose hp] at htext
    have hsettles := settles_of_written (huntouched _ hnames).outside hp htext hwrite hpublish
    exact still_says_written hsettles.source htext (settles_outcome _ _)

/-- Whatever attempts to write fail: committing the sheet of a source as it was rendered fails neither
for the text nor for a conflict, if the record of the source fits what the source holds or there is none;
and the source holds the same document and the same references as before. -/
theorem editing_lossless (env : Environment) (disk : Disk) (root source : String) (r : Registry)
    (bytes : ByteArray) (sheet : String)
    (hrender : Conversion.renderForEditing r bytes = .ok sheet)
    (huntouched : ∀ names, (openAt disk root {}).sourceNames source = .ok names →
      (openAt disk root {}).Untouched disk names bytes) :
    ∃ d refs, readSource bytes = .ok (d, refs) ∧
      FailsOnly SparesText (commitEdit env disk root source r sheet).2 ∧
      ∀ names, (openAt disk root {}).sourceNames source = .ok names →
        StillSays ((openAt disk root {}).sourcePath names) bytes d refs
          (commitEdit env disk root source r sheet).1 (commitEdit env disk root source r sheet).2 := by
  obtain ⟨d, refs, hbytes, hsheet⟩ := render_ok.mp hrender
  refine ⟨d, refs, hbytes, ?_⟩
  rw [commitEdit, Sheet.read_of_write hsheet]
  dsimp only
  generalize happly : (openAt disk root {}).apply env disk d source = result
  obtain ⟨disk', c', result⟩ := result
  exact apply_preserves rfl huntouched hbytes happly

section Example

/-- Only a source with a text that is not in its normal form. -/
def looseDisk : Disk :=
  ⟨({} : FileTree).put ["a.dx"] (.file Conversion.looseText.toUTF8), 0, 0⟩

def looseReferences : References := ⟨[("base", "b")], by decide⟩

theorem loose_source : readSource Conversion.looseText.toUTF8 =
    .ok (Conversion.looseDocument, looseReferences) := by
  rw [readSource, sourceText, Text.decodeUtf8, from_utf8]
  rfl

theorem loose_untouched {names : SourceNames}
    (h : (openAt looseDisk "/" {}).sourceNames "a.dx" = .ok names) :
    (openAt looseDisk "/" {}).Untouched looseDisk names Conversion.looseText.toUTF8 := by
  obtain rfl : ["a.dx"] = names := Except.ok.inj h
  refine ⟨outside_of_home manifest_is_step (by decide +kernel), by decide +kernel, fun held hload => ?_⟩
  have hnone : Manifest.loadRecord? looseDisk.tree (openAt looseDisk "/" {}).manifestDir
      (keyOf ["a.dx"]) = none := by decide +kernel
  simp [hnone] at hload

/-- The sheet that is rendered of that text. -/
def looseSheet : String := "[config]\nname = one\n\n[s]\nid (auto)  n (int)\n        1        7\n"

/-- The sheet is committed as it was rendered, so that the text is written in its normal form. -/
theorem editing_lossless_loose :
    Conversion.renderForEditing .standard Conversion.looseText.toUTF8 = .ok looseSheet ∧
    (∀ names, (openAt looseDisk "/" {}).sourceNames "a.dx" = .ok names →
      (openAt looseDisk "/" {}).Untouched looseDisk names Conversion.looseText.toUTF8) ∧
    (commitEdit steady looseDisk "/" "a.dx" .standard looseSheet).2.isOk = true ∧
    ∃ d refs, readSource Conversion.looseText.toUTF8 = .ok (d, refs) ∧
      FailsOnly SparesText (commitEdit steady looseDisk "/" "a.dx" .standard looseSheet).2 ∧
      ∀ names, (openAt looseDisk "/" {}).sourceNames "a.dx" = .ok names →
        StillSays ((openAt looseDisk "/" {}).sourcePath names) Conversion.looseText.toUTF8 d refs
          (commitEdit steady looseDisk "/" "a.dx" .standard looseSheet).1
          (commitEdit steady looseDisk "/" "a.dx" .standard looseSheet).2 := by
  have hrender := render_ok.mpr
    ⟨_, _, loose_source, show Sheet.write .standard {} Conversion.looseDocument = .ok looseSheet from rfl⟩
  have hdone : (commitEdit steady looseDisk "/" "a.dx" .standard looseSheet).2.isOk = true := by
    decide +kernel
  exact ⟨hrender, fun _ => loose_untouched, hdone, editing_lossless steady looseDisk "/" "a.dx" .standard
    Conversion.looseText.toUTF8 looseSheet hrender fun _ => loose_untouched⟩

end Example

end DocForms.Cache
