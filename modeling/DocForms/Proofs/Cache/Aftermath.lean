import DocForms.Proofs.Cache.Editing
import DocForms.Proofs.Cache.Sharing

namespace DocForms.Cache
open DocForms.Path FileTree

attribute [local irreducible] Path.join

variable {env : Environment} {c c' : Cache} {disk disk' : Disk} {d : Document} {refs : References}
  {names : SourceNames} {source : String}

/-- The references that a file holds: those that are read from it, and none if it cannot be read. -/
structure Carries (t : FileTree) (path : String) (refs : References) : Prop where
  readable {bytes : ByteArray} {d : Document} {held : References} (hread : t.read path = .ok bytes)
    (h : readSource bytes = .ok (d, held)) : refs = held
  unreadable (h : ∀ bytes held, t.read path = .ok bytes → readSource bytes ≠ .ok held) : refs = ∅

theorem carried_unreadable {bytes : ByteArray} (h : ∀ held, readSource bytes ≠ .ok held) :
    carriedReferences (some bytes) = ∅ := by
  cases hread : readSource bytes with
  | ok held => exact absurd hread (h held)
  | error f =>
    rw [readSource] at hread
    simp only [carriedReferences, hread]

/-- What is carried over from a file is what the file holds. -/
theorem carries_existing {path : String} {existing : Option ByteArray}
    (h : disk.readExisting path = .ok existing) :
    Carries disk.tree path (carriedReferences existing) := by
  rw [Disk.readExisting] at h
  cases hread : disk.tree.read path with
  | ok content =>
    rw [hread] at h
    cases h
    refine ⟨fun hsame hbytes => ?_, fun hnone => ?_⟩
    · rw [hread] at hsame
      cases hsame
      exact carried_references hbytes
    · exact carried_unreadable fun held => hnone content held hread
  | error fault =>
    rw [hread] at h
    obtain rfl : existing = none := by
      cases fault <;> cases h
      rfl
    refine ⟨fun hsame _ => ?_, fun _ => rfl⟩
    rw [hread] at hsame
    cases hsame

/-- A source is never its own record, wherever the records are kept. -/
theorem source_ne_own_record (hsource : IsSource names) : c.sourcePlace names ≠ c.recordPlace names := by
  intro heq
  obtain ⟨hsplit, -, -⟩ := hsource.split
  have hlast := congrArg List.getLast? heq
  rw [sourcePlace, hsplit, ← List.append_assoc, recordPlace, recordPlaceIn, renamed,
    ← List.append_assoc, List.getLast?_concat, List.getLast?_concat, Option.some.injEq] at hlast
  have hlength := congrArg String.length hlast
  simp [recordName, Manifest.recordExtension, String.length_append] at hlength

/-- What there is of a source and around it once a document was written to it. -/
structure Leaves (c : Cache) (disk : Disk) (d : Document) (names : SourceNames) (refs : References)
    (text : String) (buffer : ByteArray) (disk' : Disk) (c' : Cache) : Prop where
  carries : Carries disk.tree (c.sourcePath names) refs
  compact : Compact.write d refs = .ok text
  binary : Buffer.write d = .ok buffer
  source : disk'.tree.read (c.sourcePath names) = .ok text.toUTF8
  document : readSource text.toUTF8 = .ok (d, refs)
  record : ∃ time, c'.manifest.get? (keyOf names) = some ⟨Fingerprint.of text.toUTF8,
    [⟨artifactPath c.options names .compact, .compact, Fingerprint.of text.toUTF8,
        Fingerprint.of text.toUTF8⟩,
      ⟨artifactPath c.options names .buffer, .buffer, Fingerprint.of buffer,
        Fingerprint.of text.toUTF8⟩], time⟩
  others : ∀ q, q ∉ c.placesOf names → disk'.tree.contentAt? q = disk.tree.contentAt? q

/-- The source was written, and its files were published after that. -/
theorem leaves_of_written {p : Prepared} {text : String} {disk₁ : Disk} {made : Published}
    (houtside : ¬c.home <+: c.sourcePlace p.names) (hp : c.prepare disk d source = .ok p)
    (htext : Compact.write d (carriedReferences p.existing) = .ok text)
    (hwrite : c.write env disk (c.sourcePath p.names) text.toUTF8 = (disk₁, true))
    (hpublish : c.publish env disk₁ p.names (Fingerprint.of text.toUTF8) text p.buffer =
      (disk', made)) (m : Manifest) :
    Leaves c disk d p.names (carriedReferences p.existing) text p.buffer disk'
      (({ c with manifest := m } : Cache).adopt (keyOf p.names) made) := by
  obtain ⟨hnames, hbuffer, hexisting⟩ := prepare_ok.mp hp
  have hsource := source_names_ok hnames
  obtain ⟨hwrote, -⟩ := source_wrote hsource hwrite
  obtain ⟨⟨compactDone, bufferDone, hmade⟩, -⟩ := publish_wrote hsource hpublish
  have htarget := target_source (c := c) hsource
  have hkept : ∀ q, (∀ format, q ≠ c.artifactPlace p.names format) → q ≠ c.recordPlace p.names →
      disk'.tree.contentAt? q = disk₁.tree.contentAt? q := by
    intro q hartifact hrecord
    refine hmade.wrote.others q ?_
    simp only [List.forall_mem_cons, List.not_mem_nil, false_imp_iff, implies_true, and_true,
      target_artifact_attempt hsource, target_record_attempt hsource]
    exact ⟨hartifact _, hartifact _, hrecord⟩
  refine ⟨carries_existing hexisting, htext, hbuffer, ?_, read_written htext, ?_, fun q hq => ?_⟩
  · refine read_keeps hmade.wrote.keeps ?_ (hwrote.written rfl)
    rw [htarget]
    exact hkept _ (fun _ heq => houtside (heq ▸ List.prefix_append _ _)) (source_ne_own_record hsource)
  · rw [adopt, Manifest.get_insert_self, hmade.record]
    exact ⟨_, rfl⟩
  · rw [mem_places, not_or, not_or, not_exists] at hq
    rw [hkept q hq.2.1 hq.2.2]
    exact hwrote.others q (htarget.symm ▸ hq.1)

/-- Whenever writing a document to a source outside the directory of the cache ends well, or with nothing
but derived files missing, the source holds the document with the references that it held before. It is
recorded as it is, and only files of this source have changed. -/
theorem apply_leaves {result : Except Failure Report}
    (houtside : ∀ names, c.sourceNames source = .ok names → ¬c.home <+: c.sourcePlace names)
    (h : c.apply env disk d source = (disk', c', result)) (hresult : settles result = true) :
    ∃ names refs text buffer, c.sourceNames source = .ok names ∧
      Leaves c disk d names refs text buffer disk' c' := by
  have happlied := apply_applied env c disk d source
  rw [h] at happlied
  cases happlied with
  | unprepared hf =>
    cases hresult.symm.trans (unsettled_of_refusal (prepare_fails _ hf))
  | @refused p f hp hf =>
    cases hresult.symm.trans (unsettled_of_refusal (compose_fails p _ hf))
  | unwritten => cases hresult
  | @written p text disk₁ _ made hp htext hwrite hpublish =>
    obtain ⟨hnames, -, -⟩ := prepare_ok.mp hp
    obtain ⟨m, hm⟩ := refresh_eq c disk (keyOf p.names)
    rw [hm]
    exact ⟨_, _, _, _, hnames,
      leaves_of_written (houtside _ hnames) hp (compose_ok.mp htext).2 hwrite hpublish m⟩

section Example

/-- A cache over a source that holds a reference and has no record. -/
def looseCache : Cache := openAt looseDisk "/" {}

/-- Another document is written to that source. -/
def looseWrite : Disk × Cache × Except Failure Report :=
  looseCache.apply steady looseDisk shelf "a.dx"

theorem loose_outside {names : SourceNames} (h : looseCache.sourceNames "a.dx" = .ok names) :
    ¬looseCache.home <+: looseCache.sourcePlace names := by
  obtain rfl : ["a.dx"] = names := Except.ok.inj h
  decide +kernel

attribute [local irreducible] looseWrite in
/-- The other document has got the reference. -/
theorem apply_leaves_loose :
    (∀ names, looseCache.sourceNames "a.dx" = .ok names →
      ¬looseCache.home <+: looseCache.sourcePlace names) ∧
    looseCache.apply steady looseDisk shelf "a.dx" = looseWrite ∧ settles looseWrite.2.2 = true ∧
    ∃ text buffer, Leaves looseCache looseDisk shelf ["a.dx"] looseReferences text buffer looseWrite.1
      looseWrite.2.1 := by
  have hwrite : looseCache.apply steady looseDisk shelf "a.dx" = looseWrite := by
    unfold looseWrite
    rfl
  have hsettles : settles looseWrite.2.2 = true := by decide +kernel
  obtain ⟨names, refs, text, buffer, hnames, hleaves⟩ :=
    apply_leaves (fun _ => loose_outside) (hwrite.trans rfl) hsettles
  obtain rfl : ["a.dx"] = names := Except.ok.inj hnames
  have hread : looseDisk.tree.read (looseCache.sourcePath ["a.dx"]) =
      .ok Conversion.looseText.toUTF8 := by decide +kernel
  obtain rfl : refs = looseReferences := hleaves.carries.readable hread loose_source
  exact ⟨fun _ => loose_outside, hwrite, hsettles, text, buffer, hleaves⟩

end Example

end DocForms.Cache
