import DocForms.Manifest.Store
import DocForms.Proofs.Files.Trees
import DocForms.Proofs.Manifest.Records
import DocForms.Proofs.Manifest.Stored

namespace DocForms.Manifest
open FileTree DocForms.Path

variable {t t' : FileTree} {dir key : String} {r : SourceRecord}

/-- Whether a file in the directory of records is named like a record. -/
def IsRecordFile (names : List String) : Prop :=
  names.getLast?.any (fun name => recordExtension.toList.isSuffixOf name.toList) = true

theorem IsRecordFile.ne_nil {names : List String} (h : IsRecordFile names) : names ≠ [] := by
  rintro rfl
  cases h

theorem load_record_some : loadRecord? t dir key = some r ↔ ∃ content,
    t.read (recordPath dir key) = .ok content ∧ SourceRecord.readStored? key content = some r := by
  rw [loadRecord?]
  cases t.read (recordPath dir key) <;> simp

/-- Without a file there is no record. -/
theorem load_record_none (h : t.contentAt? (target (recordPath dir key)) = none) :
    loadRecord? t dir key = none := by
  rw [Option.eq_none_iff_forall_ne_some]
  intro r hr
  obtain ⟨content, hread, -⟩ := load_record_some.mp hr
  rw [(read_ok.mp hread).2] at h
  cases h

theorem load_record_keeps (hk : t.Keeps t') (hsame : t'.contentAt? (target (recordPath dir key)) =
    t.contentAt? (target (recordPath dir key))) (h : loadRecord? t dir key = some r) :
    loadRecord? t' dir key = some r := by
  obtain ⟨content, hread, hstored⟩ := load_record_some.mp h
  exact load_record_some.mpr ⟨content, read_keeps hk hsame hread, hstored⟩

/-- The record that was written last is the one that is loaded. -/
theorem load_record_written (h : t.read (recordPath dir key) = .ok (r.storedText key).toUTF8) :
    loadRecord? t dir key =
      (Instant.read? r.writtenAt.text).map fun time => { r with writtenAt := time } := by
  rw [loadRecord?, h]
  dsimp only
  rw [SourceRecord.read_stored, if_pos rfl]

/-- Takes in the record of one key. -/
def insertLoaded (t : FileTree) (dir : String) (m : Manifest) (key : String) : Manifest :=
  match loadRecord? t dir key with
  | some r => m.insert key r
  | none => m

theorem get_insert_loaded (m : Manifest) (first : String) :
    (insertLoaded t dir m first).get? key =
      if key = first then (loadRecord? t dir key).or (m.get? key) else m.get? key := by
  rw [insertLoaded]
  by_cases h : key = first
  · rw [if_pos h, ← h]
    cases loadRecord? t dir key with
    | none => rfl
    | some r => exact get_insert_self m key r
  · rw [if_neg h]
    split
    · rw [get_insert, if_neg h]
    · rfl

theorem get_fold_loaded (m : Manifest) (keys : List String) :
    (keys.foldl (insertLoaded t dir) m).get? key =
      if key ∈ keys then (loadRecord? t dir key).or (m.get? key) else m.get? key := by
  induction keys generalizing m with
  | nil => rfl
  | cons first rest ih =>
    rw [List.foldl_cons, ih, get_insert_loaded]
    by_cases hfirst : key = first
    · have hmem : key ∈ first :: rest := hfirst ▸ List.mem_cons_self ..
      rw [if_pos hfirst, if_pos hmem]
      split
      · cases loadRecord? t dir key <;> rfl
      · rfl
    · rw [if_neg hfirst]
      exact if_congr (List.mem_cons.trans (or_iff_right hfirst)).symm rfl rfl

/-- What is loaded for a key is what is read from the file of the key, if some file stands for it. -/
theorem load_get_iff : (load t dir).get? key = some r ↔
    key ∈ (recordFiles t dir).filterMap keyOfRecord? ∧ loadRecord? t dir key = some r := by
  have hload : (load t dir).get? key = _ := get_fold_loaded empty _
  rw [hload]
  split
  · rename_i hmem
    rw [show empty.get? key = none from rfl, Option.or_none, and_iff_right hmem]
  · rename_i hmem
    exact ⟨nofun, fun h => absurd h.1 hmem⟩

theorem load_get (h : (load t dir).get? key = some r) :
    key ∈ (recordFiles t dir).filterMap keyOfRecord? ∧ loadRecord? t dir key = some r :=
  load_get_iff.mp h

/-- A loaded record has a time that can be kept. -/
theorem load_record_kept (h : loadRecord? t dir key = some r) : r.writtenAt.IsKept := by
  obtain ⟨content, -, hstored⟩ := load_record_some.mp h
  exact SourceRecord.read_stored_kept hstored

theorem mem_record_files {names : List String} : names ∈ recordFiles t dir ↔
    t.place dir = .ok (target dir) ∧ t.isDirectory (target dir) = true ∧
      names ∈ t.filesBelow (target dir) ∧ IsRecordFile names := by
  rw [recordFiles]
  cases hplace : t.place dir with
  | error fault => simp
  | ok p =>
    obtain rfl := place_eq hplace
    dsimp only
    split
    · rename_i hdir
      simp [hdir, IsRecordFile]
    · rename_i hdir
      simp [hdir]

theorem drop_extension (s : String) : dropExtension? (s ++ recordExtension) = some s := by
  have hsuffix : recordExtension.toList.isSuffixOf (s ++ recordExtension).toList = true := by
    rw [String.toList_append, List.isSuffixOf_iff_suffix]
    exact List.suffix_append _ _
  rw [dropExtension?, if_pos hsuffix, String.toList_append, String.length_append,
    Nat.add_sub_cancel, ← String.length_toList, List.take_left, String.ofList_toList]

end DocForms.Manifest
