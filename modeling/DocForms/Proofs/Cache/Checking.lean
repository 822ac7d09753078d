import DocForms.Proofs.Cache.Turns

namespace DocForms.Cache
open DocForms.Path FileTree

attribute [local irreducible] Path.join

variable {env : Environment} {c : Cache} {disk disk' : Disk} {key path : String} {r : SourceRecord}

theorem holds_iff {f : Fingerprint} : holds disk path f = true ↔
    ∃ content, disk.tree.read path = .ok content ∧ Fingerprint.of content = f := by
  rw [holds]
  cases disk.tree.read path <;> simp

theorem is_fresh_iff {a : Artifact} : c.isFresh disk key r a = true ↔
    (∃ content, disk.tree.read (join c.root key) = .ok content ∧
      Fingerprint.of content = r.fingerprint) ∧
    (∃ content, disk.tree.read (join c.root a.path) = .ok content ∧
      Fingerprint.of content = a.content) ∧ a.source = r.fingerprint := by
  rw [isFresh, Bool.and_eq_true, Bool.and_eq_true, holds_iff, holds_iff, decide_eq_true_iff,
    and_assoc]

/-- The paths of the artifacts of which there is a record, with whether they are fresh. -/
def tracked (c : Cache) (disk : Disk) : List (String × Bool) :=
  (c.currentManifest disk).entries.flatMap fun (key, r) =>
    r.artifacts.map fun a => (join c.root a.path, c.isFresh disk key r a)

theorem mem_tracked {fresh : Bool} : (path, fresh) ∈ c.tracked disk ↔
    ∃ key r a, (c.currentManifest disk).get? key = some r ∧ a ∈ r.artifacts ∧
      path = join c.root a.path ∧ c.isFresh disk key r a = fresh := by
  simp only [tracked, List.mem_flatMap, Prod.exists, List.mem_map, Prod.mk.injEq, Manifest.get_iff]
  constructor
  · rintro ⟨key, r, hentry, a, ha, rfl, hfresh⟩
    exact ⟨key, r, a, hentry, ha, rfl, hfresh⟩
  · rintro ⟨key, r, a, hentry, ha, rfl, hfresh⟩
    exact ⟨key, r, hentry, a, ha, rfl, hfresh⟩

theorem verify_eq : c.verify disk =
    (artifactFiles disk (join c.root c.options.cacheDir)).map fun found =>
      { fresh := Path.sort (((c.tracked disk).filter (·.2)).map Prod.fst)
        stale := Path.sort (((c.tracked disk).filter (!·.2)).map Prod.fst)
        untracked :=
          Path.sort (found.filter fun path => !(c.tracked disk).any fun t => Path.same t.1 path) } := by
  rw [verify]
  cases artifactFiles disk (join c.root c.options.cacheDir) <;> rfl

theorem mem_fresh {f : Freshness} (h : c.verify disk = .ok f) :
    path ∈ f.fresh ↔ (path, true) ∈ c.tracked disk := by
  rw [verify_eq] at h
  obtain ⟨found, -, rfl⟩ := map_eq_ok.mp h
  simp [Path.sort]

theorem mem_stale {f : Freshness} (h : c.verify disk = .ok f) :
    path ∈ f.stale ↔ (path, false) ∈ c.tracked disk := by
  rw [verify_eq] at h
  obtain ⟨found, -, rfl⟩ := map_eq_ok.mp h
  simp [Path.sort]

/-- Where an artifact can be read, checking goes through. -/
theorem verify_some {names : SourceNames} (hsource : IsSource names) {format : ArtifactFormat}
    {content : ByteArray} (hread : disk.tree.read (c.artifactFile names format) = .ok content) :
    ∃ f, c.verify disk = .ok f := by
  obtain ⟨-, habove, hlast⟩ := hsource.split
  have hplace := (read_ok.mp hread).1
  rw [artifact_file_join hsource] at hplace
  obtain ⟨habove', -⟩ := place_join (step_relative (artifact_name_step format hlast)) _ hplace
  obtain ⟨hhome, hdir⟩ := place_join (names_relative habove) _ habove'
  rw [verify_eq, artifactFiles, hhome]
  dsimp only
  rw [directory_iff.mp hdir]
  exact ⟨_, rfl⟩

/-- Known records give way to those on disk only if these are newer. -/
theorem current_get (h : c.manifest.get? key = some r) : (c.currentManifest disk).get? key =
    some (Manifest.later ((Manifest.load disk.tree c.manifestDir).get? key) r) := by
  have hlookup : c.manifest.entries.lookup key = some r := h
  rw [currentManifest, Manifest.get_merge_all _ c.manifest.keys_nodup, hlookup]

section Settled
variable {names : SourceNames} {bytes buffer : ByteArray} {text : String} {made : Published}
  (h : Settles env c disk disk' names bytes text buffer made) (m : Manifest)
include h

/-- The record of a source that was settled is the one that counts from then on, unless the file of its
record was not written and holds a record that is no earlier. -/
theorem current_settled (hsource : IsSource names)
    (hearlier : made.saved = false → ∀ content held,
      disk.tree.contentAt? (c.recordPlace names) = some content →
      SourceRecord.readStored? (keyOf names) content = some held →
      made.record.isNewerThan held = true) :
    ∃ time, ((({ c with manifest := m } : Cache).adopt (keyOf names) made).currentManifest
      disk').get? (keyOf names) = some { made.record with writtenAt := time } := by
  have hget : (({ c with manifest := m } : Cache).adopt (keyOf names) made).manifest.get?
      (keyOf names) = some made.record := Manifest.get_insert_self m _ _
  rw [current_get hget]
  change ∃ time, some (Manifest.later ((Manifest.load disk'.tree c.manifestDir).get? (keyOf names))
    made.record) = _
  cases hheld : (Manifest.load disk'.tree c.manifestDir).get? (keyOf names) with
  | none => exact ⟨made.record.writtenAt, rfl⟩
  | some held =>
    have hload := (Manifest.load_get hheld).2
    cases hsaved : made.saved with
    | true =>
      rw [Manifest.load_record_written (h.makes.read_record hsaved)] at hload
      obtain ⟨time, -, rfl⟩ := Option.map_eq_some_iff.mp hload
      rw [Manifest.later]
      split
      · exact ⟨made.record.writtenAt, rfl⟩
      · exact ⟨time, rfl⟩
    | false =>
      obtain ⟨content, hread, hstored⟩ := Manifest.load_record_some.mp hload
      have hcontent := (read_ok.mp hread).2
      have hkept := h.makes.kept_record hsaved
      rw [recordPath] at hkept
      rw [hkept, ← recordPath, target_record hsource] at hcontent
      rw [Manifest.later, if_pos (hearlier hsaved content held hcontent hstored)]
      exact ⟨made.record.writtenAt, rfl⟩

/-- Then its artifacts are tracked by what was made of the source. -/
theorem tracked_settled {time : Instant}
    (hcurrent : ((({ c with manifest := m } : Cache).adopt (keyOf names) made).currentManifest
      disk').get? (keyOf names) = some { made.record with writtenAt := time })
    (format : ArtifactFormat) :
    (c.artifactFile names format,
        holds disk' (c.artifactFile names format) (Fingerprint.of (formOf text buffer format))) ∈
      (({ c with manifest := m } : Cache).adopt (keyOf names) made).tracked disk' := by
  have hrecord : { made.record with writtenAt := time } =
      recordOf c.options names (Fingerprint.of bytes) text buffer time := by
    rw [h.record]
    rfl
  rw [hrecord] at hcurrent
  refine mem_tracked.mpr ⟨_, _, _, hcurrent, mem_artifacts.mpr ⟨format, rfl⟩, rfl, ?_⟩
  have hheld : holds disk' (join c.root (keyOf names)) (Fingerprint.of bytes) = true :=
    holds_iff.mpr ⟨bytes, h.source, rfl⟩
  rw [isFresh]
  change (holds disk' (join c.root (keyOf names)) (Fingerprint.of bytes) &&
    holds disk' (c.artifactFile names format) _ &&
    decide (Fingerprint.of bytes = Fingerprint.of bytes)) = _
  rw [hheld, decide_eq_true rfl, Bool.true_and, Bool.and_true]

end Settled

end DocForms.Cache
