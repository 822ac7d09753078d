import DocForms.Proofs.Cache.RecordFiles

namespace DocForms.Cache
open DocForms.Path FileTree

attribute [local irreducible] Path.join

variable {t t' t'' : FileTree} {dir key : String} {file : List String} {names : SourceNames}
  {r : SourceRecord}

/-- The files of records have proper names, and each one can be read by the path of its key. -/
structure Legible (dir : String) (t : FileTree) : Prop where
  steps : ∀ file, Manifest.IsRecordFile file → t.Lists (target dir ++ file) →
    ∀ name ∈ file, IsStep name
  reads : ∀ file key content, Keyed file key →
    t.contentAt? (target dir ++ file) = some content →
    t.read (Manifest.recordPath dir key) = .ok content

theorem Legible.load_record (h : Legible dir t) (hk : Keyed file key) :
    Manifest.loadRecord? t dir key =
      (t.contentAt? (target dir ++ file)).bind (SourceRecord.readStored? key) := by
  cases hcontent : t.contentAt? (target dir ++ file) with
  | none => exact Manifest.load_record_none (by rw [hk.target, hcontent])
  | some content =>
    rw [Manifest.loadRecord?, h.reads file key content hk hcontent]
    rfl

/-- Opening finds the records of all keys that files stand for. -/
theorem Legible.load_get (h : Legible dir t) : (Manifest.load t dir).get? key = some r ↔
    (∃ file, Keyed file key) ∧ Manifest.loadRecord? t dir key = some r := by
  rw [Manifest.load_get_iff, and_congr_left_iff]
  intro hload
  rw [List.mem_filterMap]
  constructor
  · rintro ⟨file, hfile, hkey⟩
    obtain ⟨-, -, hbelow, hnamed⟩ := Manifest.mem_record_files.mp hfile
    exact ⟨file, hnamed, h.steps file hnamed (mem_files_below.mp hbelow).2, hkey⟩
  · rintro ⟨file, hk⟩
    obtain ⟨content, hread, -⟩ := Manifest.load_record_some.mp hload
    obtain ⟨hplace, hcontent⟩ := read_ok.mp hread
    -- where a record can be read, its directory can be found
    rw [hk.path] at hplace
    obtain ⟨hdir, hdirectory⟩ := place_join (names_relative hk.steps) dir hplace
    rw [hk.target] at hcontent
    have hbelow := mem_files_below.mpr ⟨hk.named.ne_nil, lists_of_content hcontent⟩
    exact ⟨_, Manifest.mem_record_files.mpr ⟨hdir, hdirectory, hbelow, hk.named⟩, hk.stands⟩

/-- Opening finds the same for a key as long as the file for it is left alone. -/
theorem Legible.load_same (h : Legible dir t) (h' : Legible dir t')
    (hsame : ∀ file, Keyed file key →
      t'.contentAt? (target dir ++ file) = t.contentAt? (target dir ++ file)) :
    (Manifest.load t' dir).get? key = (Manifest.load t dir).get? key := by
  refine Option.ext fun r => ?_
  rw [h'.load_get, h.load_get, and_congr_right_iff]
  rintro ⟨file, hk⟩
  rw [h'.load_record hk, h.load_record hk, hsame file hk]

/-- Where files are legible they stay so. -/
theorem Filed.legible {filings : List Filing} (h : Filed dir filings t t') (hl : Legible dir t) :
    Legible dir t' := by
  refine ⟨fun file hfile hlist => (h.listed file hfile hlist).elim (hl.steps file hfile) ?_,
    fun file key content hk hcontent => ?_⟩
  · rintro ⟨s, hs, rfl⟩
    exact (keyed_source hs).steps
  by_cases hsaved : ∃ f ∈ filings, f.saved = true ∧ keyOf f.names = key
  · obtain ⟨f, hf, hsaved, rfl⟩ := hsaved
    have hread := h.saved f hf hsaved
    have hwritten := (read_ok.mp hread).2
    rw [hk.target, hcontent] at hwritten
    rw [hread, Option.some.inj hwritten]
  · have hsame := h.others file key hk fun f hf hs hkey => hsaved ⟨f, hf, hs, hkey⟩
    refine read_keeps h.keeps ?_ (hl.reads file key content hk (hsame.symm.trans hcontent))
    rw [hk.target, hsame]

/-- A record that was saved is found. -/
theorem Filed.load_saved {filings : List Filing} {f : Filing} (h : Filed dir filings t t')
    (hl : Legible dir t) (hf : f ∈ filings) (hsaved : f.saved = true)
    (hkept : f.record.writtenAt.IsKept) :
    (Manifest.load t' dir).get? (keyOf f.names) = some f.record :=
  (h.legible hl).load_get.mpr ⟨⟨_, keyed_source (h.sources f hf)⟩,
    load_written hkept (h.saved f hf hsaved)⟩

/-- For keys that no record was saved for, nothing else is found than before. -/
theorem Filed.load_other {filings : List Filing} (h : Filed dir filings t t') (hl : Legible dir t)
    (hnone : ∀ f ∈ filings, f.saved = true → keyOf f.names ≠ key) :
    (Manifest.load t' dir).get? key = (Manifest.load t dir).get? key :=
  hl.load_same (h.legible hl) fun file hk => h.others file key hk hnone

end DocForms.Cache
