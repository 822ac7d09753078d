import DocForms.Proofs.Cache.Writing

namespace DocForms.Cache
open DocForms.Path FileTree

attribute [local irreducible] Path.join

variable {env : Environment} {c : Cache} {disk : Disk} {d : Document} {source : String}

/-- A failure that an operation ends with before it has changed any file. -/
def IsRefusal : Failure → Prop
  | .outsideRoot _ | .encoding _ | .conflict _ _ _ | .io _ => True
  | .parse _ _ | .integrity _ | .staleCache _ _ => False

/-- A failure for rules that a document breaks. -/
def IsEncoding (f : Failure) : Prop :=
  ∃ violations, f = .encoding violations

theorem IsEncoding.refusal {f : Failure} (h : IsEncoding f) : IsRefusal f := by
  obtain ⟨_, rfl⟩ := h
  trivial

theorem require_valid_fails : FailsOnly IsEncoding d.requireValid := by
  rw [Document.requireValid]
  split
  · exact .ok _
  · exact .error ⟨_, rfl⟩

theorem buffer_write_fails : FailsOnly IsEncoding (Buffer.write d) := by
  refine require_valid_fails.bind fun _ => ?_
  split
  · exact .error ⟨_, rfl⟩
  · exact .ok _

theorem compact_write_fails (refs : References) : FailsOnly IsEncoding (Compact.write d refs) := by
  refine require_valid_fails.bind fun _ => ?_
  split
  · exact .ok _
  · exact .error ⟨_, rfl⟩

theorem prepare_ok {p : Prepared} :
    c.prepare disk d source = .ok p ↔ c.sourceNames source = .ok p.names ∧
      Buffer.write d = .ok p.buffer ∧
      disk.readExisting (c.sourcePath p.names) = .ok p.existing := by
  simp only [prepare, bind_eq_ok, map_error_eq_ok, pure, Except.pure, Except.ok.injEq]
  constructor
  · rintro ⟨names, hnames, buffer, hbuffer, existing, hexisting, rfl⟩
    exact ⟨hnames, hbuffer, hexisting⟩
  · rintro ⟨hnames, hbuffer, hexisting⟩
    exact ⟨_, hnames, _, hbuffer, _, hexisting, rfl⟩

theorem source_names_fails (c : Cache) (source : String) :
    FailsOnly IsRefusal (c.sourceNames source) := by
  intro f h
  rw [source_names_error h]
  trivial

theorem prepare_fails : FailsOnly IsRefusal (c.prepare disk d source) :=
  (source_names_fails c source).bind fun _ =>
    (buffer_write_fails.imp fun _ => IsEncoding.refusal).bind fun _ =>
    FailsOnly.bind (.map_error _ fun _ => trivial) fun _ => .ok _

theorem compose_ok {p : Prepared} {text : String} :
    c.compose d p = .ok text ↔ c.checkConflict p.names p.existing = .ok () ∧
      Compact.write d (carriedReferences p.existing) = .ok text := by
  simp only [compose, bind_eq_ok]
  constructor
  · rintro ⟨⟨⟩, hcheck, htext⟩
    exact ⟨hcheck, htext⟩
  · rintro ⟨hcheck, htext⟩
    exact ⟨(), hcheck, htext⟩

theorem check_conflict_error {names : SourceNames} {existing : Option ByteArray} {f : Failure} :
    c.checkConflict names existing = .error f ↔
      ∃ r, c.manifest.get? (keyOf names) = some r ∧
        existing.map Fingerprint.of ≠ some r.fingerprint ∧
        f = .conflict (c.sourcePath names) r.fingerprint (existing.map Fingerprint.of) := by
  rw [checkConflict]
  cases hget : c.manifest.get? (keyOf names) with
  | none => simp
  | some r =>
    dsimp only
    split
    · rename_i hsame
      simp [hsame]
    · rename_i hdiffer
      constructor
      · intro h
        cases h
        exact ⟨r, rfl, hdiffer, rfl⟩
      · rintro ⟨held, hheld, -, rfl⟩
        cases hheld
        rfl

theorem compose_fails (p : Prepared) : FailsOnly IsRefusal (c.compose d p) := by
  refine FailsOnly.bind (fun f hcheck => ?_) fun _ =>
    (compact_write_fails _).imp fun _ => IsEncoding.refusal
  obtain ⟨r, -, -, rfl⟩ := check_conflict_error.mp hcheck
  trivial

/-- Every way in which writing a document to a source can end. -/
inductive Applied (env : Environment) (c : Cache) (disk : Disk) (d : Document) (source : String) :
    Disk × Cache × Except Failure Report → Prop
  | unprepared {f : Failure} (hf : c.prepare disk d source = .error f) :
    Applied env c disk d source (disk, c, .error f)
  | refused {p : Prepared} {f : Failure} (hp : c.prepare disk d source = .ok p)
      (hf : (c.refresh disk (keyOf p.names)).compose d p = .error f) :
    Applied env c disk d source (disk, c.refresh disk (keyOf p.names), .error f)
  | unwritten {p : Prepared} {text : String} {disk' : Disk}
      (hp : c.prepare disk d source = .ok p)
      (htext : (c.refresh disk (keyOf p.names)).compose d p = .ok text)
      (hwrite : c.write env disk (c.sourcePath p.names) text.toUTF8 = (disk', false)) :
    Applied env c disk d source
      (disk', c.refresh disk (keyOf p.names), .error (.io (c.sourcePath p.names)))
  | written {p : Prepared} {text : String} {disk₁ disk' : Disk} {made : Published}
      (hp : c.prepare disk d source = .ok p)
      (htext : (c.refresh disk (keyOf p.names)).compose d p = .ok text)
      (hwrite : c.write env disk (c.sourcePath p.names) text.toUTF8 = (disk₁, true))
      (hpublish : c.publish env disk₁ p.names (Fingerprint.of text.toUTF8) text p.buffer =
        (disk', made)) :
    Applied env c disk d source
      (disk', (c.refresh disk (keyOf p.names)).adopt (keyOf p.names) made,
        c.outcome p.names made)

/-- Taking in a record changes nothing but the records that are known. -/
theorem refresh_eq (c : Cache) (disk : Disk) (key : String) :
    ∃ m, c.refresh disk key = { c with manifest := m } := by
  rw [refresh]
  split
  · exact ⟨_, rfl⟩
  · exact ⟨c.manifest, rfl⟩

theorem apply_applied (env : Environment) (c : Cache) (disk : Disk) (d : Document)
    (source : String) : Applied env c disk d source (c.apply env disk d source) := by
  rw [apply]
  cases hp : c.prepare disk d source with
  | error f => exact .unprepared hp
  | ok p =>
    obtain ⟨m, hm⟩ := refresh_eq c disk (keyOf p.names)
    have hsource : (c.refresh disk (keyOf p.names)).sourcePath p.names = c.sourcePath p.names := by
      rw [hm, sourcePath, sourcePath]
    have hwrite : (c.refresh disk (keyOf p.names)).write env = c.write env := by
      rw [hm]
      rfl
    have hpublish : (c.refresh disk (keyOf p.names)).publish env = c.publish env := by
      rw [hm]
      rfl
    have houtcome : (c.refresh disk (keyOf p.names)).outcome = c.outcome := by
      rw [hm]
      rfl
    dsimp only
    cases htext : (c.refresh disk (keyOf p.names)).compose d p with
    | error f => exact .refused hp htext
    | ok text =>
      dsimp only
      rw [hsource, hwrite]
      rcases hresult : c.write env disk (c.sourcePath p.names) text.toUTF8 with ⟨disk₁, done⟩
      cases done with
      | false => exact .unwritten hp htext hresult
      | true =>
        dsimp only
        rw [hpublish, houtcome]
        exact .written hp htext hresult rfl

theorem derive_ok {s : Derived} :
    c.derive disk source = .ok s ↔ c.sourceNames source = .ok s.names ∧
      ∃ bytes content d refs, disk.tree.read (c.sourcePath s.names) = .ok bytes ∧
        sourceText bytes = .ok content ∧ Compact.readWithReferences content = .ok (d, refs) ∧
        Compact.write d refs = .ok s.text ∧ Buffer.write d = .ok s.buffer ∧
        s.fingerprint = Fingerprint.of bytes := by
  simp only [derive, bind_eq_ok, map_error_eq_ok, pure, Except.pure, Except.ok.injEq]
  constructor
  · rintro ⟨names, hnames, bytes, hbytes, content, hcontent, ⟨d, refs⟩, hread, text, htext, buffer,
      hbuffer, rfl⟩
    exact ⟨hnames, bytes, content, d, refs, hbytes, hcontent, hread, htext, hbuffer, rfl⟩
  · rintro ⟨hnames, bytes, content, d, refs, hbytes, hcontent, hread, htext, hbuffer, hfingerprint⟩
    refine ⟨_, hnames, bytes, hbytes, content, hcontent, (d, refs), hread, _, htext, _, hbuffer, ?_⟩
    rw [← hfingerprint]

/-- Every way in which making the files of a source again can end. -/
inductive Remade (env : Environment) (c : Cache) (disk : Disk) (source : String) :
    Disk × Cache × Except Failure Report → Prop
  | underived {f : Failure} (hf : c.derive disk source = .error f) :
    Remade env c disk source (disk, c, .error f)
  | published {s : Derived} {disk' : Disk} {made : Published}
      (hs : c.derive disk source = .ok s)
      (hpublish : c.publish env disk s.names s.fingerprint s.text s.buffer = (disk', made)) :
    Remade env c disk source (disk', c.adopt (keyOf s.names) made, c.outcome s.names made)

theorem regenerate_one_remade (env : Environment) (c : Cache) (disk : Disk) (source : String) :
    Remade env c disk source (c.regenerateOne env disk source) := by
  rw [regenerateOne]
  cases hs : c.derive disk source with
  | error f => exact .underived hs
  | ok s => exact .published hs rfl

end DocForms.Cache
