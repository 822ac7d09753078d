import DocForms.Cache.Apply
import DocForms.Cache.Regenerate
import DocForms.Proofs.Cache.Places
import DocForms.Proofs.Outcomes
import Mathlib.Data.List.Nodup

namespace DocForms.Cache
open DocForms.Path FileTree

-- paths are told apart by where they lead and never spelled out
attribute [local irreducible] Path.join

section Disk
variable (env : Environment)

theorem try_write_wrote (disk : Disk) {path : String} (hpath : EndsInStep path)
    (content : ByteArray) :
    Wrote disk.tree (disk.tryWrite env path content).1.tree path content
        (disk.tryWrite env path content).2 ∧
      (disk.tryWrite env path content).1.readings = disk.readings := by
  rw [Disk.tryWrite]
  split
  · exact ⟨⟨.refl _, fun _ _ => rfl, fun _ hq => .inl hq, fun _ => rfl, nofun⟩, rfl⟩
  · exact ⟨write_wrote hpath content, rfl⟩

theorem write_within_wrote (disk : Disk) {path : String} (hpath : EndsInStep path)
    (content : ByteArray) (n : Nat) :
    Wrote disk.tree (disk.writeWithin env path content n).1.tree path content
        (disk.writeWithin env path content n).2 ∧
      (disk.writeWithin env path content n).1.readings = disk.readings := by
  induction n generalizing disk with
  | zero => exact ⟨⟨.refl _, fun _ _ => rfl, fun _ hq => .inl hq, fun _ => rfl, nofun⟩, rfl⟩
  | succ n ih =>
    obtain ⟨hfirst, hreadings⟩ := try_write_wrote env disk hpath content
    rw [Disk.writeWithin]
    generalize disk.tryWrite env path content = result at hfirst hreadings
    obtain ⟨after, done⟩ := result
    cases done with
    | true => exact ⟨hfirst, hreadings⟩
    | false =>
      obtain ⟨hrest, hreadings'⟩ := ih after
      dsimp only at hfirst hreadings ⊢
      refine ⟨⟨hfirst.keeps.trans hrest.keeps, fun q hq => ?_, fun q hq => ?_, fun hdone => ?_,
        hrest.written⟩, hreadings'.trans hreadings⟩
      · rw [hrest.others q hq, hfirst.unchanged]
      · exact (hrest.lists q hq).imp_left fun hq => (hfirst.lists q hq).resolve_right nofun
      · rw [hrest.failed hdone, hfirst.unchanged]

end Disk

variable {env : Environment} {c : Cache} {disk : Disk}

theorem write_wrote (env : Environment) (c : Cache) (disk : Disk) {path : String}
    (hpath : EndsInStep path) (content : ByteArray) :
    Wrote disk.tree (c.write env disk path content).1.tree path content
        (c.write env disk path content).2 ∧
      (c.write env disk path content).1.readings = disk.readings :=
  write_within_wrote env disk hpath content (max 1 c.options.writeAttempts)

/-- The paths of the files that were not put into place. -/
def undone (attempts : List Attempt) : List String :=
  (attempts.filter (!·.done)).map Attempt.path

theorem undone_append (first second : List Attempt) :
    undone (first ++ second) = undone first ++ undone second := by
  rw [undone, List.filter_append, List.map_append, undone, undone]

theorem undone_cons (a : Attempt) (rest : List Attempt) :
    undone (a :: rest) = if a.done then undone rest else a.path :: undone rest := by
  rw [undone, List.filter_cons]
  cases a.done <;> rfl

theorem mem_undone {attempts : List Attempt} {path : String} :
    path ∈ undone attempts ↔ ∃ a ∈ attempts, a.done = false ∧ a.path = path := by
  simp only [undone, List.mem_map, List.mem_filter, Bool.not_eq_true', and_assoc]

/-- Where all attempts are for different paths, each one is told by its path. -/
theorem undone_tells {attempts : List Attempt} (hnodup : (attempts.map Attempt.path).Nodup)
    {a : Attempt} (ha : a ∈ attempts) : a.path ∈ undone attempts ↔ a.done = false := by
  rw [mem_undone]
  constructor
  · rintro ⟨b, hb, hdone, hpath⟩
    rwa [List.inj_on_of_nodup_map hnodup ha hb hpath.symm]
  · exact fun hdone => ⟨a, ha, hdone, rfl⟩

def artifactAttempt (c : Cache) (names : SourceNames) (format : ArtifactFormat)
    (content : ByteArray) (done : Bool) : Attempt :=
  ⟨c.artifactFile names format, content, done⟩

def recordAttempt (c : Cache) (names : SourceNames) (r : SourceRecord) (done : Bool) : Attempt :=
  ⟨c.recordPath (keyOf names), (r.storedText (keyOf names)).toUTF8, done⟩

theorem target_artifact_attempt {names : SourceNames} (h : IsSource names)
    (format : ArtifactFormat) (content : ByteArray) (done : Bool) :
    target (c.artifactAttempt names format content done).path = c.artifactPlace names format := by
  dsimp only [artifactAttempt]
  rw [target_artifact h]

theorem target_record_attempt {names : SourceNames} (h : IsSource names) (r : SourceRecord)
    (done : Bool) : target (c.recordAttempt names r done).path = c.recordPlace names := by
  dsimp only [recordAttempt]
  rw [target_record h]

/-- What an artifact of a format holds. -/
def formOf (text : String) (buffer : ByteArray) : ArtifactFormat → ByteArray
  | .compact => text.toUTF8
  | .buffer => buffer

/-- The record of a source with the contents that belong to it. -/
def recordOf (o : Options) (names : SourceNames) (source : Fingerprint) (text : String)
    (buffer : ByteArray) (time : Instant) : SourceRecord :=
  ⟨source, [⟨artifactPath o names .compact, .compact, Fingerprint.of text.toUTF8, source⟩,
    ⟨artifactPath o names .buffer, .buffer, Fingerprint.of buffer, source⟩], time⟩

theorem mem_artifacts {o : Options} {names : SourceNames} {source : Fingerprint} {text : String}
    {buffer : ByteArray} {time : Instant} {a : Artifact} :
    a ∈ (recordOf o names source text buffer time).artifacts ↔ ∃ format, a =
      ⟨artifactPath o names format, format, Fingerprint.of (formOf text buffer format), source⟩ := by
  simp only [recordOf, List.mem_cons, List.not_mem_nil, or_false]
  constructor
  · rintro (rfl | rfl)
    · exact ⟨.compact, rfl⟩
    · exact ⟨.buffer, rfl⟩
  · rintro ⟨_ | _, rfl⟩
    · exact .inl rfl
    · exact .inr rfl

/-- What was made of a source: the attempts for its artifacts and its record, those that failed among
them, and the record itself. -/
structure Publishes (c : Cache) (names : SourceNames) (source : Fingerprint) (text : String)
    (buffer : ByteArray) (time : Instant) (t t' : FileTree) (made : Published)
    (compactDone bufferDone : Bool) : Prop where
  record : made.record = recordOf c.options names source text buffer time
  wrote : WroteAll t t' [c.artifactAttempt names .compact text.toUTF8 compactDone,
    c.artifactAttempt names .buffer buffer bufferDone, c.recordAttempt names made.record made.saved]
  stale : made.stale = undone [c.artifactAttempt names .compact text.toUTF8 compactDone,
    c.artifactAttempt names .buffer buffer bufferDone, c.recordAttempt names made.record made.saved]

/-- The files that are made of a source: their paths, and what is to be in them. -/
def filesOf (c : Cache) (names : SourceNames) (text : String) (buffer : ByteArray)
    (r : SourceRecord) : List (String × ByteArray) :=
  [(c.artifactFile names .compact, text.toUTF8), (c.artifactFile names .buffer, buffer),
    (c.recordPath (keyOf names), (r.storedText (keyOf names)).toUTF8)]

theorem artifact_mem_files (names : SourceNames) (text : String) (buffer : ByteArray)
    (r : SourceRecord) (format : ArtifactFormat) :
    (c.artifactFile names format, formOf text buffer format) ∈ c.filesOf names text buffer r := by
  cases format <;> simp [filesOf, formOf]

/-- The files of a source are at different paths. -/
theorem files_nodup {names : SourceNames} (h : IsSource names) (text : String) (buffer : ByteArray)
    (r : SourceRecord) : ((c.filesOf names text buffer r).map Prod.fst).Nodup := by
  have hartifact (format : ArtifactFormat) := target_artifact (c := c) h format
  have hrecord := target_record (c := c) h
  refine List.Nodup.of_map target ?_
  simpa [filesOf, hartifact, hrecord] using
    ⟨⟨artifact_places_differ, artifact_place_ne_record_place⟩, artifact_place_ne_record_place⟩

/-- Each of the files is listed if it is as it was, and otherwise it holds what was made of the source. -/
structure Makes (c : Cache) (names : SourceNames) (text : String) (buffer : ByteArray)
    (t t' : FileTree) (made : Published) : Prop where
  files : ∀ f ∈ c.filesOf names text buffer made.record,
    (f.1 ∉ made.stale → t'.read f.1 = .ok f.2) ∧
      (f.1 ∈ made.stale → t'.contentAt? (target f.1) = t.contentAt? (target f.1))
  stale : ∀ path ∈ made.stale, path ∈ (c.filesOf names text buffer made.record).map Prod.fst
  saved : made.saved = true ↔ c.recordPath (keyOf names) ∉ made.stale

/-- Where a record was saved, its file holds it. -/
theorem Makes.read_record {names : SourceNames} {text : String} {buffer : ByteArray}
    {t t' : FileTree} {made : Published} (h : Makes c names text buffer t t' made)
    (hsaved : made.saved = true) :
    t'.read (c.recordPath (keyOf names)) = .ok (made.record.storedText (keyOf names)).toUTF8 :=
  (h.files (c.recordPath (keyOf names), _) (by simp [filesOf])).1 (h.saved.mp hsaved)

/-- Where it was not saved, the file is as it was. -/
theorem Makes.kept_record {names : SourceNames} {text : String} {buffer : ByteArray}
    {t t' : FileTree} {made : Published} (h : Makes c names text buffer t t' made)
    (hsaved : made.saved = false) : t'.contentAt? (target (c.recordPath (keyOf names))) =
      t.contentAt? (target (c.recordPath (keyOf names))) := by
  refine (h.files (c.recordPath (keyOf names), _) (List.mem_of_mem_getLast? rfl)).2 ?_
  by_contra hstale
  rw [h.saved.mpr hstale] at hsaved
  cases hsaved

/-- Where nothing is missing, the artifacts hold the forms of the document. -/
theorem Makes.read_artifact {names : SourceNames} {text : String} {buffer : ByteArray}
    {t t' : FileTree} {made : Published} (h : Makes c names text buffer t t' made)
    (hstale : made.stale = []) (format : ArtifactFormat) :
    t'.read (c.artifactFile names format) = .ok (formOf text buffer format) :=
  (h.files _ (artifact_mem_files names text buffer made.record format)).1 (by simp [hstale])

theorem Publishes.makes {names : SourceNames} {source : Fingerprint} {text : String}
    {buffer : ByteArray} {time : Instant} {t t' : FileTree} {made : Published}
    {compactDone bufferDone : Bool} (hsource : IsSource names)
    (h : Publishes c names source text buffer time t t' made compactDone bufferDone) :
    Makes c names text buffer t t' made := by
  obtain ⟨-, hwrote, hstale⟩ := h
  generalize hattempts : [c.artifactAttempt names .compact text.toUTF8 compactDone,
    c.artifactAttempt names .buffer buffer bufferDone,
    c.recordAttempt names made.record made.saved] = attempts at hwrote hstale
  have hfiles : c.filesOf names text buffer made.record =
      attempts.map fun a => (a.path, a.content) := by
    rw [← hattempts]
    simp only [filesOf, List.map_cons, List.map_nil, artifactAttempt, recordAttempt]
  have hpaths : (c.filesOf names text buffer made.record).map Prod.fst =
      attempts.map Attempt.path := by
    rw [hfiles, List.map_map]
    rfl
  have hnodup : (attempts.map Attempt.path).Nodup := hpaths ▸ files_nodup hsource text buffer _
  refine ⟨fun f hf => ?_, fun path hpath => ?_, ?_⟩
  · rw [hfiles] at hf
    obtain ⟨a, ha, rfl⟩ := List.mem_map.mp hf
    rw [hstale, undone_tells hnodup ha, Bool.not_eq_false]
    exact ⟨hwrote.written a ha, hwrote.failed a ha⟩
  · rw [hstale] at hpath
    obtain ⟨a, ha, -, rfl⟩ := mem_undone.mp hpath
    rw [hpaths]
    exact List.mem_map_of_mem ha
  · have hrecord : c.recordAttempt names made.record made.saved ∈ attempts := by
      rw [← hattempts]
      simp
    have htells := undone_tells hnodup hrecord
    dsimp only [recordAttempt] at htells
    rw [hstale, htells, Bool.not_eq_false]

theorem write_outputs_cons (format : ArtifactFormat) (path : String) (content : ByteArray)
    (rest : List (ArtifactFormat × String × ByteArray)) :
    c.writeOutputs env disk ((format, path, content) :: rest) =
      let first := c.write env disk (join c.root path) content
      let others := c.writeOutputs env first.1 rest
      (others.1, if first.2 then others.2 else join c.root path :: others.2) :=
  rfl

/-- The attempts for outputs, each of them with whether it was done. -/
def outputAttempts (c : Cache) (files : List (ArtifactFormat × String × ByteArray))
    (flags : List Bool) : List Attempt :=
  List.zipWith (fun f done => ⟨join c.root f.2.1, f.2.2, done⟩) files flags

theorem mem_output_attempts {files : List (ArtifactFormat × String × ByteArray)}
    {flags : List Bool} {a : Attempt} (h : a ∈ c.outputAttempts files flags) :
    ∃ f ∈ files, a.path = join c.root f.2.1 := by
  obtain ⟨i, hi, rfl⟩ := List.mem_iff_getElem.mp h
  rw [outputAttempts, List.length_zipWith] at hi
  refine ⟨files[i], List.getElem_mem _, ?_⟩
  simp [outputAttempts]

/-- Outputs at different places are attempted one after another. -/
theorem write_outputs_wrote {files : List (ArtifactFormat × String × ByteArray)}
    (hends : ∀ f ∈ files, EndsInStep (join c.root f.2.1))
    (hapart : files.Pairwise fun f g => target (join c.root f.2.1) ≠ target (join c.root g.2.1))
    {disk' : Disk} {stale : List String} (h : c.writeOutputs env disk files = (disk', stale)) :
    ∃ flags : List Bool, flags.length = files.length ∧
      WroteAll disk.tree disk'.tree (c.outputAttempts files flags) ∧
        stale = undone (c.outputAttempts files flags) ∧ disk'.readings = disk.readings := by
  induction files generalizing disk disk' stale with
  | nil =>
    obtain ⟨rfl, rfl⟩ := Prod.mk.inj h
    exact ⟨[], rfl, .nil _, rfl, rfl⟩
  | cons f rest ih =>
    obtain ⟨format, path, content⟩ := f
    obtain ⟨hfirst, hrest⟩ := List.pairwise_cons.mp hapart
    obtain ⟨hwrote, hreadings⟩ :=
      write_wrote env c disk (hends _ (List.mem_cons_self ..)) content
    rw [write_outputs_cons] at h
    generalize c.write env disk (join c.root path) content = first at h hwrote hreadings
    obtain ⟨disk₁, done⟩ := first
    dsimp only at h hwrote hreadings
    generalize hothers : c.writeOutputs env disk₁ rest = others at h
    obtain ⟨disk₂, stale₂⟩ := others
    obtain ⟨rfl, rfl⟩ := Prod.mk.inj h
    obtain ⟨flags, hlength, hall, hstale, hreadings'⟩ :=
      ih (fun f hf => hends f (List.mem_cons_of_mem _ hf)) hrest hothers
    refine ⟨done :: flags, by rw [List.length_cons, hlength, List.length_cons], ?_, ?_,
      hreadings'.trans hreadings⟩
    · refine (WroteAll.single (a := ⟨join c.root path, content, done⟩) hwrote).append hall ?_
      intro a ha b hb
      obtain rfl := List.mem_singleton.mp ha
      obtain ⟨g, hg, hpath⟩ := mem_output_attempts hb
      rw [hpath]
      exact hfirst g hg
    · rw [hstale]
      cases done <;> rfl

theorem outputs_apart {names : SourceNames} (h : IsSource names) (text : String)
    (buffer : ByteArray) :
    (outputs c.options names text buffer).Pairwise
      fun f g => target (join c.root f.2.1) ≠ target (join c.root g.2.1) := by
  have htarget (format : ArtifactFormat) :
      target (join c.root (artifactPath c.options names format)) = c.artifactPlace names format :=
    target_artifact h format
  simpa [outputs, htarget] using artifact_places_differ

theorem artifacts_wrote {names : SourceNames} (h : IsSource names) {text : String}
    {buffer : ByteArray} {disk' : Disk} {stale : List String}
    (hw : c.writeOutputs env disk (outputs c.options names text buffer) = (disk', stale)) :
    ∃ compactDone bufferDone, ∃ attempts : List Attempt,
      attempts = [c.artifactAttempt names .compact text.toUTF8 compactDone,
          c.artifactAttempt names .buffer buffer bufferDone] ∧
        WroteAll disk.tree disk'.tree attempts ∧ stale = undone attempts ∧
        disk'.readings = disk.readings := by
  have hends : ∀ f ∈ outputs c.options names text buffer, EndsInStep (join c.root f.2.1) := by
    intro f hf
    rcases List.mem_cons.mp hf with rfl | hf
    · exact artifact_ends (c := c) h .compact
    · obtain rfl := List.mem_singleton.mp hf
      exact artifact_ends (c := c) h .buffer
  obtain ⟨flags, hlength, hwrote, hstale, hreadings⟩ :=
    write_outputs_wrote hends (outputs_apart h text buffer) hw
  obtain ⟨compactDone, bufferDone, rfl⟩ : ∃ a b, flags = [a, b] := by
    match flags, hlength with
    | [a, b], _ => exact ⟨a, b, rfl⟩
  exact ⟨compactDone, bufferDone, _, rfl, hwrote, hstale, hreadings⟩

theorem source_wrote {names : SourceNames} (h : IsSource names) {content : ByteArray} {disk' : Disk}
    {done : Bool} (hw : c.write env disk (c.sourcePath names) content = (disk', done)) :
    Wrote disk.tree disk'.tree (c.sourcePath names) content done ∧
      disk'.readings = disk.readings := by
  have hwrote := write_wrote env c disk (source_ends (c := c) h) content
  rwa [hw] at hwrote

theorem persist_wrote {names : SourceNames} (h : IsSource names) {r : SourceRecord} {disk' : Disk}
    {saved : Bool} (hp : c.persist env disk (keyOf names) r = (disk', saved)) :
    Wrote disk.tree disk'.tree (c.recordPath (keyOf names)) (r.storedText (keyOf names)).toUTF8
      saved ∧ disk'.readings = disk.readings := by
  have hwrote :=
    write_wrote env c disk (record_ends (c := c) h) (r.storedText (keyOf names)).toUTF8
  rwa [← persist, hp] at hwrote

/-- The steps of publishing: the artifacts, a reading of the clock, the record. -/
theorem publish_eq (names : SourceNames) (source : Fingerprint) (text : String)
    (buffer : ByteArray) :
    c.publish env disk names source text buffer =
      let first := c.writeOutputs env disk (outputs c.options names text buffer)
      let r := recordOf c.options names source text buffer (env.clock first.1.readings)
      let second := c.persist env { first.1 with readings := first.1.readings + 1 } (keyOf names) r
      (second.1, ⟨r, second.2,
        if second.2 then first.2 else first.2 ++ [c.recordPath (keyOf names)]⟩) :=
  rfl

theorem publish_wrote {names : SourceNames} (h : IsSource names) {source : Fingerprint}
    {text : String} {buffer : ByteArray} {disk' : Disk} {made : Published}
    (hp : c.publish env disk names source text buffer = (disk', made)) :
    (∃ compactDone bufferDone, Publishes c names source text buffer (env.clock disk.readings)
      disk.tree disk'.tree made compactDone bufferDone) ∧ disk'.readings = disk.readings + 1 := by
  rw [publish_eq] at hp
  generalize houtputs : c.writeOutputs env disk (outputs c.options names text buffer) = first at hp
  obtain ⟨disk₁, stale⟩ := first
  obtain ⟨compactDone, bufferDone, attempts, hattempts, hwrote, hstale, hreadings⟩ :=
    artifacts_wrote h houtputs
  dsimp only at hp
  rw [hreadings] at hp
  generalize hr : recordOf c.options names source text buffer (env.clock disk.readings) = r at hp
  generalize hsave : c.persist env { disk₁ with readings := disk.readings + 1 } (keyOf names) r =
    second at hp
  obtain ⟨disk₂, saved⟩ := second
  obtain ⟨rfl, rfl⟩ := Prod.mk.inj hp
  obtain ⟨hrecord, hreadings'⟩ := persist_wrote h hsave
  have hall : WroteAll disk.tree disk₂.tree (attempts ++ [c.recordAttempt names r saved]) := by
    have hlast : WroteAll disk₁.tree disk₂.tree [c.recordAttempt names r saved] := by
      refine .single ?_
      dsimp only [recordAttempt]
      exact hrecord
    apply hwrote.append hlast
    intro a ha b hb
    obtain rfl := List.mem_singleton.mp hb
    rw [target_record_attempt h]
    rw [hattempts] at ha
    rcases List.mem_cons.mp ha with rfl | ha
    · rw [target_artifact_attempt h]
      exact artifact_place_ne_record_place
    · obtain rfl := List.mem_singleton.mp ha
      rw [target_artifact_attempt h]
      exact artifact_place_ne_record_place
  have hundone : (if saved then stale else stale ++ [c.recordPath (keyOf names)]) =
      undone (attempts ++ [c.recordAttempt names r saved]) := by
    rw [undone_append, ← hstale, undone_cons]
    cases saved with
    | false => rfl
    | true => exact (List.append_nil stale).symm
  rw [hattempts, List.cons_append, List.cons_append, List.nil_append] at hall hundone
  exact ⟨⟨compactDone, bufferDone, ⟨hr.symm, hall, hundone⟩⟩, hreadings'⟩

end DocForms.Cache
