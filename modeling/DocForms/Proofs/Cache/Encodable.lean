import DocForms.Proofs.Buffer.Capacity
import DocForms.Proofs.Cache.Editing

namespace DocForms.Cache
open DocForms.Path FileTree Buffer

attribute [local irreducible] Path.join

variable {env : Environment} {c : Cache} {disk : Disk} {d : Document} {refs : References}
  {source : String} {names : SourceNames} {bytes : ByteArray}

/-- A failure of files: a place outside the root, a change by someone else, or a file that cannot be read
or written. -/
def OfFiles : Failure → Prop
  | .outsideRoot _ | .conflict _ _ _ | .io _ | .staleCache _ _ => True
  | .parse _ _ | .encoding _ | .integrity _ => False

/-- Files were left unwritten after the source was taken in. -/
def OfStaleFiles (f : Failure) : Prop :=
  ∃ path stale, f = .staleCache path stale

theorem OfStaleFiles.files {f : Failure} (h : OfStaleFiles f) : OfFiles f := by
  obtain ⟨_, _, rfl⟩ := h
  trivial

theorem outcome_stale (names : SourceNames) (made : Published) :
    FailsOnly OfStaleFiles (c.outcome names made) := by
  rw [outcome]
  split
  · exact .ok _
  · exact .error ⟨_, _, rfl⟩

theorem carried_names (existing : Option ByteArray) :
    ∀ k ∈ (carriedReferences existing).keys, isName k = true := by
  cases existing with
  | none => exact fun _ hk => absurd hk List.not_mem_nil
  | some bytes =>
    cases hread : readSource bytes with
    | error f =>
      have hnone : carriedReferences (some bytes) = ∅ := by
        rw [readSource] at hread
        simp only [carriedReferences, hread]
      rw [hnone]
      exact fun _ hk => absurd hk List.not_mem_nil
    | ok held =>
      obtain ⟨d, refs⟩ := held
      rw [carried_references hread]
      obtain ⟨content, -, hcontent⟩ := bind_eq_ok.mp hread
      exact (Compact.lawful_of_read hcontent).2

theorem prepare_encodable (h : Encodable d) : FailsOnly OfFiles (c.prepare disk d source) := by
  have hnames : FailsOnly OfFiles (c.sourceNames source) := by
    intro f hf
    rw [source_names_error hf]
    trivial
  refine hnames.bind fun names => ?_
  rw [write_encodable h, ok_bind]
  exact FailsOnly.bind (.map_error _ fun _ => trivial) fun _ => .ok _

theorem compose_encodable (h : Encodable d) (p : Prepared) : FailsOnly OfFiles (c.compose d p) := by
  have hcheck : FailsOnly OfFiles (c.checkConflict p.names p.existing) := by
    intro f hf
    obtain ⟨r, -, -, rfl⟩ := check_conflict_error.mp hf
    trivial
  refine hcheck.bind fun _ => ?_
  rw [Compact.write_ok h.valid (carried_names p.existing)]
  exact .ok _

theorem apply_encodable (h : Encodable d) : FailsOnly OfFiles (c.apply env disk d source).2.2 := by
  have happlied := apply_applied env c disk d source
  generalize c.apply env disk d source = result at happlied
  cases happlied with
  | unprepared hf => exact .error (prepare_encodable h _ hf)
  | refused _ hf => exact .error (compose_encodable h _ _ hf)
  | unwritten => exact .error trivial
  | written => exact (outcome_stale _ _).imp fun _ => OfStaleFiles.files

theorem derive_encodable (h : Encodable d) (hnames : c.sourceNames source = .ok names)
    (hbytes : disk.tree.read (c.sourcePath names) = .ok bytes)
    (hread : readSource bytes = .ok (d, refs)) : ∃ s, c.derive disk source = .ok s := by
  obtain ⟨content, hcontent, hdocument⟩ := bind_eq_ok.mp hread
  obtain ⟨-, hrefs⟩ := Compact.lawful_of_read hdocument
  exact ⟨⟨names, Fingerprint.of bytes, _, _⟩, derive_ok.mpr ⟨hnames, bytes, content, d, refs, hbytes,
    hcontent, hdocument, Compact.write_ok h.valid hrefs, write_encodable h Fingerprint.of, rfl⟩⟩

theorem regenerate_encodable (h : Encodable d) (hnames : c.sourceNames source = .ok names)
    (hbytes : disk.tree.read (c.sourcePath names) = .ok bytes)
    (hread : readSource bytes = .ok (d, refs)) :
    FailsOnly OfStaleFiles (c.regenerateOne env disk source).2.2 := by
  obtain ⟨s, hs⟩ := derive_encodable h hnames hbytes hread
  have hremade := regenerate_one_remade env c disk source
  generalize c.regenerateOne env disk source = result at hremade
  cases hremade with
  | underived hf => simp [hs] at hf
  | published => exact outcome_stale _ _

/-- A valid document has a buffer exactly if no name in it is longer than 65535 bytes and its size, which is
then the size of the buffer, is below `2 ^ 32`; any other is refused as too large. With such a buffer,
nothing but files can keep the document from being written to a source, or the files of a source that
holds it from being made again. -/
theorem encodable_exactly (d : Document) (hd : d.isValid = true) :
    (∀ fingerprintOf, (∃ b, Buffer.write d fingerprintOf = .ok b) ↔
      (∀ name ∈ namesOf d, name.utf8ByteSize ≤ 65535) ∧ encodedSize d ≤ 2 ^ 32 - 1) ∧
    (∀ fingerprintOf b, Buffer.write d fingerprintOf = .ok b → b.size = encodedSize d) ∧
    (∀ fingerprintOf f, Buffer.write d fingerprintOf = .error f → ∃ n, f = .encoding [.tooLarge n]) ∧
    ((∀ name ∈ namesOf d, name.utf8ByteSize ≤ 65535) → encodedSize d ≤ 2 ^ 32 - 1 →
      (∀ env c disk source, FailsOnly OfFiles (apply env c disk d source).2.2) ∧
      ∀ env c disk source names bytes refs, c.sourceNames source = .ok names →
        disk.tree.read (c.sourcePath names) = .ok bytes → readSource bytes = .ok (d, refs) →
        FailsOnly OfStaleFiles (regenerateOne env c disk source).2.2) := by
  refine ⟨fun fingerprintOf => ⟨?_, ?_⟩, ?_, ?_, ?_⟩
  · rintro ⟨b, hwrite⟩
    obtain ⟨-, hnames, hsize⟩ := encodable_of_write hwrite
    exact ⟨hnames, hsize⟩
  · rintro ⟨hnames, hsize⟩
    exact ⟨_, write_encodable ⟨hd, hnames, hsize⟩ fingerprintOf⟩
  · intro fingerprintOf b hwrite
    obtain ⟨-, -, rfl⟩ := write_ok.mp hwrite
    exact size_buffer (Document.is_valid_iff.mp hd) fingerprintOf
  · intro fingerprintOf f hwrite
    rcases write_valid hd fingerprintOf with ⟨n, hn⟩ | ⟨b, hb⟩
    · rw [hn] at hwrite
      cases hwrite
      exact ⟨n, rfl⟩
    · rw [hb] at hwrite
      cases hwrite
  · intro hnames hsize
    have h : Encodable d := ⟨hd, hnames, hsize⟩
    exact ⟨fun env c disk source => apply_encodable h,
      fun env c disk source names bytes refs hsource hbytes hread =>
        regenerate_encodable h hsource hbytes hread⟩

section Example

/-- A name of one byte more than two bytes can tell. -/
def longName : String :=
  String.ofList (List.replicate 65536 'a')

/-- The document `#c:name|1` under that name. -/
def longNamed : Document :=
  ⟨⟨[(longName, .int 1)], by simp⟩, []⟩

theorem is_name_replicate {c : Char} (hstart : isNameStart c = true) (hrest : isNameRest c = true)
    (n : Nat) : isName (String.ofList (List.replicate (n + 1) c)) = true := by
  rw [isName, String.toList_ofList, List.replicate_succ, isNameText, hstart, Bool.true_and, List.all_eq_true]
  intro x hx
  rwa [List.eq_of_mem_replicate hx]

theorem size_replicate (c : Char) (n : Nat) :
    (String.ofList (List.replicate n c)).utf8ByteSize = n * c.utf8Size := by
  induction n with
  | zero => simp
  | succ n ih =>
    rw [List.replicate_succ, String.ofList_cons, String.utf8ByteSize_append,
      String.utf8ByteSize_singleton, ih]
    lia

theorem size_long_name : longName.utf8ByteSize = 65536 :=
  size_replicate 'a' 65536

theorem long_named_valid : longNamed.isValid = true := by
  have hname : isName longName = true := is_name_replicate (by decide) (by decide) 65535
  refine Document.is_valid_iff.mpr ⟨fun e he => ?_, List.nodup_nil,
    fun s hs => absurd hs List.not_mem_nil⟩
  rw [List.mem_singleton.mp he]
  exact ⟨hname, fun t ht => absurd ht.symm (Option.some_ne_none t)⟩

/-- No rule limits the size of a name, so that a small document is valid and yet refused. -/
theorem long_name_refused :
    longNamed.isValid = true ∧ encodedSize longNamed ≤ 2 ^ 32 - 1 ∧
    Buffer.write longNamed = .error (.encoding [.tooLarge 65536]) := by
  have hroom : textRoom longName = 65536 := by
    rw [textRoom, size_long_name]
    rfl
  have hsize : ∀ name, encodedSize ⟨⟨[(name, .int 1)], by simp⟩, []⟩ =
      headerSize + contextEntrySize + textRoom name := fun name => rfl
  have htext : (writeText 0 longName).stated = [⟨shortLimit, 65536⟩, ⟨longLimit, 0⟩] := by
    rw [writeText, length_text_bytes, size_long_name]
    rfl
  have hstated : (body longNamed).stated.find? (fun n => !n.fits) = some ⟨shortLimit, 65536⟩ := by
    simp only [body, Buffer.entries, Piece.append, writeContext, longNamed, writeAll, writePair, htext,
      List.cons_append]
    rfl
  refine ⟨long_named_valid, ?_, ?_⟩
  · rw [longNamed, hsize, hroom]
    decide
  · rw [Buffer.write, Document.requireValid, if_pos long_named_valid, ok_bind, hstated]

theorem encodable_exactly_shelf :
    shelf.isValid = true ∧ (∀ name ∈ namesOf shelf, name.utf8ByteSize ≤ 65535) ∧
    encodedSize shelf ≤ 2 ^ 32 - 1 ∧ ∃ b, Buffer.write shelf Fingerprint.of = .ok b :=
  have hnames : ∀ name ∈ namesOf shelf, name.utf8ByteSize ≤ 65535 := by decide
  have hsize : encodedSize shelf ≤ 2 ^ 32 - 1 := by decide
  ⟨by decide, hnames, hsize,
    ((encodable_exactly shelf (by decide)).1 Fingerprint.of).mpr ⟨hnames, hsize⟩⟩

end Example
end DocForms.Cache
