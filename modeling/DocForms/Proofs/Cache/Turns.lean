import DocForms.Cache.Verify
import DocForms.Proofs.Cache.Operations
import DocForms.Proofs.Compact.Sources
import DocForms.Proofs.Manifest.Store

namespace DocForms.Cache
open DocForms.Path FileTree

attribute [local irreducible] Path.join

/-- Bytes hold a document of which these are the forms. -/
def Derives (bytes : ByteArray) (text : String) (buffer : ByteArray) : Prop :=
  ∃ content d refs, sourceText bytes = .ok content ∧
    Compact.readWithReferences content = .ok (d, refs) ∧ Compact.write d refs = .ok text ∧
    Buffer.write d = .ok buffer

/-- A manifest has records only from a cache and from the files of the records of sources. -/
def Recalls (c : Cache) (disk : Disk) (m : Manifest) : Prop :=
  ∀ key r, m.get? key = some r → c.manifest.get? key = some r ∨
    ∃ names, IsSource names ∧ key = keyOf names ∧
      Manifest.loadRecord? disk.tree c.manifestDir key = some r

/-- Whether an operation that ended so has written a source or taken in what it holds. -/
def settles : Except Failure Report → Bool
  | .ok _ | .error (.staleCache _ _) => true
  | .error _ => false

/-- What the settling of a source does to the files and which record comes of it. -/
structure Settles (env : Environment) (c : Cache) (disk disk' : Disk) (names : SourceNames)
    (bytes : ByteArray) (text : String) (buffer : ByteArray) (made : Published) : Prop where
  outside : c.Outside names
  source : disk'.tree.read (c.sourcePath names) = .ok bytes
  derives : Derives bytes text buffer
  record : made.record =
    recordOf c.options names (Fingerprint.of bytes) text buffer (env.clock disk.readings)
  keeps : disk.tree.Keeps disk'.tree
  others : ∀ q, q ≠ c.sourcePlace names → (∀ format, q ≠ c.artifactPlace names format) →
    q ≠ c.recordPlace names → disk'.tree.contentAt? q = disk.tree.contentAt? q
  lists : ∀ q, disk'.tree.Lists q → disk.tree.Lists q ∨ q = c.sourcePlace names ∨
    (∃ format, q = c.artifactPlace names format) ∨ q = c.recordPlace names
  makes : Makes c names text buffer disk.tree disk'.tree made
  readings : disk'.readings = disk.readings + 1

/-- Every way in which an operation on a source can end: with the files and the cache that there are
then, the outcome, and the key and the content of the source if it was settled. -/
inductive Turn (env : Environment) (c : Cache) (disk : Disk) (source : String) :
    Disk → Cache → Except Failure Report → List (String × ByteArray) → Prop
  | kept {disk' : Disk} {m : Manifest} {result : Except Failure Report}
      (hmemory : c.Recalls disk m) (hresult : settles result = false)
      (hkeeps : disk.tree.Keeps disk'.tree)
      (hcontents : ∀ q, disk'.tree.contentAt? q = disk.tree.contentAt? q)
      (hlists : ∀ q, disk'.tree.Lists q → disk.tree.Lists q)
      (hreadings : disk'.readings = disk.readings) :
    Turn env c disk source disk' { c with manifest := m } result []
  | settled {disk' : Disk} {m : Manifest} {names : SourceNames} {bytes : ByteArray} {text : String}
      {buffer : ByteArray} {made : Published} (hnames : c.sourceNames source = .ok names)
      (hmemory : c.Recalls disk m) (h : Settles env c disk disk' names bytes text buffer made) :
    Turn env c disk source disk' (({ c with manifest := m } : Cache).adopt (keyOf names) made)
      (c.outcome names made) [(keyOf names, bytes)]

variable {env : Environment} {c : Cache} {disk disk' : Disk} {d : Document} {source : String}

theorem recalls_own (c : Cache) (disk : Disk) : c.Recalls disk c.manifest :=
  fun _ _ h => .inl h

theorem recalls_refresh (c : Cache) (disk : Disk) {names : SourceNames} (hsource : IsSource names) :
    ∃ m, c.refresh disk (keyOf names) = { c with manifest := m } ∧ c.Recalls disk m := by
  rw [refresh]
  split
  · rename_i r hload
    refine ⟨_, rfl, fun other held h => ?_⟩
    rw [Manifest.get_merge] at h
    split at h
    · rename_i heq
      subst heq
      cases h
      rcases Manifest.later_cases (c.manifest.get? (keyOf names)) r with heq | heq
      · rw [heq]
        exact .inr ⟨names, hsource, rfl, hload⟩
      · exact .inl heq
    · exact .inl h
  · exact ⟨c.manifest, rfl, recalls_own c disk⟩

/-- The source is at hand when its files are published; the publishing leaves it as it is. -/
theorem settles_of_publishes {names : SourceNames} {bytes buffer : ByteArray} {text : String}
    {t : FileTree} {made : Published} {compactDone bufferDone : Bool} (hsource : IsSource names)
    (houtside : c.Outside names) (hkeeps : disk.tree.Keeps t)
    (hothers : ∀ q, q ≠ c.sourcePlace names → t.contentAt? q = disk.tree.contentAt? q)
    (hlists : ∀ q, t.Lists q → disk.tree.Lists q ∨ q = c.sourcePlace names)
    (hread : t.read (c.sourcePath names) = .ok bytes) (hderives : Derives bytes text buffer)
    (h : Publishes c names (Fingerprint.of bytes) text buffer (env.clock disk.readings) t disk'.tree
      made compactDone bufferDone) (hreadings : disk'.readings = disk.readings + 1) :
    Settles env c disk disk' names bytes text buffer made := by
  have hwrote := h.wrote
  have hplaces : ∀ q, (∀ format, q ≠ c.artifactPlace names format) → q ≠ c.recordPlace names →
      disk'.tree.contentAt? q = t.contentAt? q := by
    intro q hartifact hrecord
    refine hwrote.others q ?_
    simp only [List.forall_mem_cons, List.not_mem_nil, false_imp_iff, implies_true, and_true,
      target_artifact_attempt hsource, target_record_attempt hsource]
    exact ⟨hartifact _, hartifact _, hrecord⟩
  have hsame : disk'.tree.contentAt? (c.sourcePlace names) = t.contentAt? (c.sourcePlace names) :=
    hplaces _ (fun format => houtside.ne_artifact format) houtside.ne_record
  refine ⟨houtside, ?_, hderives, h.record, hkeeps.trans hwrote.keeps, ?_, ?_, ?_, hreadings⟩
  · refine read_keeps hwrote.keeps ?_ hread
    rw [target_source hsource, hsame]
  · intro q hq hartifact hrecord
    rw [hplaces q hartifact hrecord, hothers q hq]
  · intro q hq
    rcases hwrote.lists q hq with hq | ⟨a, ha, rfl⟩
    · exact (hlists q hq).imp_right .inl
    · refine .inr (.inr ?_)
      simp only [List.mem_cons, List.not_mem_nil, or_false] at ha
      rcases ha with rfl | rfl | rfl
      · exact .inl ⟨_, target_artifact_attempt hsource _ _ _⟩
      · exact .inl ⟨_, target_artifact_attempt hsource _ _ _⟩
      · exact .inr (target_record_attempt hsource _ _)
  · have hmakes := h.makes hsource
    refine ⟨fun f hf => ⟨(hmakes.files f hf).1, fun hstale => ?_⟩, hmakes.stale, hmakes.saved⟩
    rw [(hmakes.files f hf).2 hstale]
    refine hothers _ ?_
    simp only [filesOf, List.mem_cons, List.not_mem_nil, or_false] at hf
    rcases hf with rfl | rfl | rfl
    · exact target_artifact hsource _ ▸ (houtside.ne_artifact _).symm
    · exact target_artifact hsource _ ▸ (houtside.ne_artifact _).symm
    · exact target_record hsource ▸ houtside.ne_record.symm

/-- The settling of a source leaves the records of others. -/
theorem Settles.record_others {names other : SourceNames} {bytes buffer : ByteArray} {text : String}
    {made : Published} (h : Settles env c disk disk' names bytes text buffer made)
    (hsource : IsSource names) (hother : IsSource other) (hne : other ≠ names) :
    disk'.tree.contentAt? (recordPlaceIn c.manifestDir other) =
      disk.tree.contentAt? (recordPlaceIn c.manifestDir other) := by
  refine h.others _ (h.outside.ne_record (t := other)).symm (fun format => ?_) fun heq => ?_
  · exact (artifact_place_ne_record_place (c := c)).symm
  · exact hne ((record_place_inj hother hsource).mp heq)

/-- A failure that leaves a source unsettled. -/
def Unsettled (f : Failure) : Prop :=
  settles (.error f) = false

theorem unsettled_of_refusal {f : Failure} (h : IsRefusal f) : Unsettled f := by
  cases f <;> first | rfl | cases h

theorem unsettled_at_line {f : Failure} (h : AtLine f) : Unsettled f := by
  cases f <;> first | rfl | cases h

theorem settles_outcome (names : SourceNames) (made : Published) :
    settles (c.outcome names made) = true := by
  rw [outcome]
  split <;> rfl

/-- A turn without failures settled its source, and nothing that was made of it is missing. -/
theorem turn_done {c' : Cache} {report : Report} {news : List (String × ByteArray)}
    (h : Turn env c disk source disk' c' (.ok report) news) :
    ∃ m names bytes text buffer made, c.sourceNames source = .ok names ∧
      c' = ({ c with manifest := m } : Cache).adopt (keyOf names) made ∧
      news = [(keyOf names, bytes)] ∧ Settles env c disk disk' names bytes text buffer made ∧
      made.stale = [] := by
  generalize hresult : (.ok report : Except Failure Report) = result at h
  cases h with
  | kept _ hresult' =>
    rw [← hresult] at hresult'
    cases hresult'
  | @settled m names bytes text buffer made hnames _ h =>
    refine ⟨m, names, bytes, text, buffer, made, hnames, rfl, rfl, h, ?_⟩
    rw [outcome] at hresult
    split at hresult
    · rename_i hempty
      exact List.isEmpty_iff.mp hempty
    · cases hresult

theorem turn_of_error {m : Manifest} {f : Failure} (hmemory : c.Recalls disk m)
    (hf : Unsettled f) :
    Turn env c disk source disk { c with manifest := m } (.error f) [] :=
  .kept hmemory hf (.refl _) (fun _ => rfl) (fun _ hq => hq) rfl

/-- The bytes that are written hold the document that was to be written. -/
theorem derives_of_write {refs : References} {text : String} {buffer : ByteArray}
    (htext : Compact.write d refs = .ok text) (hbuffer : Buffer.write d = .ok buffer) :
    Derives text.toUTF8 text buffer := by
  refine ⟨text, d, refs, ?_, Compact.read_of_write htext, htext, hbuffer⟩
  rw [sourceText, Text.decodeUtf8, from_utf8]
  rfl

theorem derive_fails : FailsOnly Unsettled (c.derive disk source) :=
  ((source_names_fails c source).imp fun _ => unsettled_of_refusal).bind fun _ =>
    FailsOnly.bind (.map_error _ fun _ => rfl) fun bytes =>
    ((source_text_fails_at_line bytes).imp fun _ => unsettled_at_line).bind fun text =>
    ((Compact.read_fails_at_line text).imp fun _ => unsettled_at_line).bind fun _ =>
    ((compact_write_fails _).imp fun _ h => unsettled_of_refusal h.refusal).bind fun _ =>
    (buffer_write_fails.imp fun _ h => unsettled_of_refusal h.refusal).bind fun _ => .ok _

/-- A source that was written is settled with the text of the document. -/
theorem settles_of_written {p : Prepared} {text : String} {disk₁ : Disk} {made : Published}
    (houtside : c.Outside p.names) (hp : c.prepare disk d source = .ok p) {refs : References}
    (htext : Compact.write d refs = .ok text)
    (hwrite : c.write env disk (c.sourcePath p.names) text.toUTF8 = (disk₁, true))
    (hpublish : c.publish env disk₁ p.names (Fingerprint.of text.toUTF8) text p.buffer =
      (disk', made)) : Settles env c disk disk' p.names text.toUTF8 text p.buffer made := by
  obtain ⟨hnames, hbuffer, -⟩ := prepare_ok.mp hp
  have hsource := source_names_ok hnames
  obtain ⟨hwrote, hreadings⟩ := source_wrote hsource hwrite
  obtain ⟨⟨compactDone, bufferDone, hmade⟩, hreadings'⟩ := publish_wrote hsource hpublish
  rw [hreadings] at hmade hreadings'
  have htarget := target_source (c := c) hsource
  refine settles_of_publishes hsource houtside hwrote.keeps (fun q hq => hwrote.others q ?_)
    (fun q hq => ?_) (hwrote.written rfl) (derives_of_write htext hbuffer) hmade hreadings'
  · rwa [htarget]
  · rw [← htarget]
    exact (hwrote.lists q hq).imp_right And.right

/-- Writing a document to a source. -/
theorem apply_turn (houtside : ∀ names, c.sourceNames source = .ok names → c.Outside names)
    {c' : Cache} {result : Except Failure Report}
    (h : c.apply env disk d source = (disk', c', result)) :
    ∃ news, Turn env c disk source disk' c' result news := by
  have happlied := apply_applied env c disk d source
  rw [h] at happlied
  cases happlied with
  | unprepared hf =>
    exact ⟨[], turn_of_error (recalls_own c disk) (unsettled_of_refusal (prepare_fails _ hf))⟩
  | @refused p f hp hf =>
    obtain ⟨hnames, -, -⟩ := prepare_ok.mp hp
    obtain ⟨m, hm, hmemory⟩ := recalls_refresh c disk (source_names_ok hnames)
    rw [hm]
    exact ⟨[], turn_of_error hmemory (unsettled_of_refusal (compose_fails p _ hf))⟩
  | @unwritten p text _ hp htext hwrite =>
    obtain ⟨hnames, -, -⟩ := prepare_ok.mp hp
    obtain ⟨m, hm, hmemory⟩ := recalls_refresh c disk (source_names_ok hnames)
    obtain ⟨hwrote, hreadings⟩ := source_wrote (source_names_ok hnames) hwrite
    rw [hm]
    exact ⟨[], .kept hmemory rfl hwrote.keeps hwrote.unchanged
      (fun q hq => (hwrote.lists q hq).resolve_right nofun) hreadings⟩
  | @written p text disk₁ _ made hp htext hwrite hpublish =>
    obtain ⟨hnames, -, -⟩ := prepare_ok.mp hp
    obtain ⟨m, hm, hmemory⟩ := recalls_refresh c disk (source_names_ok hnames)
    rw [hm]
    exact ⟨_, .settled hnames hmemory
      (settles_of_written (houtside _ hnames) hp (compose_ok.mp htext).2 hwrite hpublish)⟩

/-- Making the files of one source again. -/
theorem regenerate_one_turn (houtside : ∀ names, c.sourceNames source = .ok names → c.Outside names)
    {c' : Cache} {result : Except Failure Report}
    (h : c.regenerateOne env disk source = (disk', c', result)) :
    ∃ news, Turn env c disk source disk' c' result news := by
  have hremade := regenerate_one_remade env c disk source
  rw [h] at hremade
  cases hremade with
  | underived hf =>
    exact ⟨[], turn_of_error (recalls_own c disk) (derive_fails _ hf)⟩
  | @published s _ made hs hpublish =>
    obtain ⟨hnames, bytes, content, d, refs, hread, hcontent, hcompact, htext, hbuffer,
      hfingerprint⟩ := derive_ok.mp hs
    have hsource := source_names_ok hnames
    rw [hfingerprint] at hpublish
    obtain ⟨⟨compactDone, bufferDone, hmade⟩, hreadings⟩ := publish_wrote hsource hpublish
    exact ⟨_, .settled hnames (recalls_own c disk) (settles_of_publishes hsource
      (houtside _ hnames) (.refl _) (fun _ _ => rfl) (fun _ hq => .inl hq) hread
      ⟨content, d, refs, hcontent, hcompact, htext, hbuffer⟩ hmade hreadings)⟩

end DocForms.Cache
