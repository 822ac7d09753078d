import DocForms.Proofs.Cache.Reopening

namespace DocForms.Cache
open DocForms.Path FileTree

attribute [local irreducible] Path.join

/-- What a file says as the stored form of a record: its version, the source it belongs to, and the
record. -/
def Says (content : ByteArray) (version : Nat) (source : String) (r : SourceRecord) : Prop :=
  ∃ o versionPart sourcePart recordPart, Json.Outline.ofBytes? content = some o ∧
    o.fields? ["version", "source", "record"] = some [versionPart, sourcePart, recordPart] ∧
    versionPart.toJson?.bind Json.nat? = some version ∧ sourcePart.string? = some source ∧
    SourceRecord.ofOutline? recordPart = some r

/-- A file that is no record: it has another kind of name, it is no stored form of a record, or one of
another version or of a source that the file does not stand for. -/
def IsStray (file : List String) (content : ByteArray) : Prop :=
  ¬Manifest.IsRecordFile file ∨ ∀ version source r, Says content version source r →
    version ≠ SourceRecord.storedVersion ∨ Manifest.keyOfRecord? file ≠ some source

/-- Records are written one after another into a directory, and files that are no records are put beside
them or in their place. With the files that come to be, the manifest of the records that were written last. -/
inductive Deposited (dir : String) (t : FileTree) : Manifest → FileTree → Prop
  | nothing : Deposited dir t .empty t
  | record {m : Manifest} {t' t'' : FileTree} {names : SourceNames} {r : SourceRecord}
      (h : Deposited dir t m t') (hsource : IsSource names)
      (htime : Instant.read? r.writtenAt.text = some r.writtenAt)
      (hwrite : t'.write (Manifest.recordPath dir (keyOf names)) (r.storedText (keyOf names)).toUTF8 =
        (t'', true)) : Deposited dir t (m.insert (keyOf names) r) t''
  | stray {m : Manifest} {t' t'' : FileTree} {file : List String} {content : ByteArray}
      (h : Deposited dir t m t') (hne : file ≠ []) (hsteps : ∀ name ∈ file, IsStep name)
      (hstray : IsStray file content)
      (hbeside : ∀ key, Manifest.keyOfRecord? file = some key → m.get? key = none)
      (hwrite : t'.write (join dir (ofNames file)) content = (t'', true)) : Deposited dir t m t''
  | spoiled {m : Manifest} {t' t'' : FileTree} {file : List String} {content : ByteArray} {key : String}
      (h : Deposited dir t m t') (hsteps : ∀ name ∈ file, IsStep name)
      (hstray : IsStray file content) (hname : Manifest.IsRecordFile file)
      (hkey : Manifest.keyOfRecord? file = some key)
      (hwrite : t'.write (join dir (ofNames file)) content = (t'', true)) :
      Deposited dir t (m.without key) t''

variable {t t' t'' : FileTree} {dir key : String} {file : List String} {names : SourceNames}
  {r : SourceRecord} {m : Manifest} {content : ByteArray}

theorem says_of_read (h : SourceRecord.readStored? key content = some r) :
    Says content SourceRecord.storedVersion key r := by
  obtain ⟨o, ho, h⟩ := Option.bind_eq_some_iff.mp h
  obtain ⟨fields, hfields, h⟩ := Option.bind_eq_some_iff.mp h
  split at h
  · rename_i versionPart sourcePart recordPart
    obtain ⟨held, hheld, h⟩ := Option.bind_eq_some_iff.mp h
    obtain ⟨version, hversion, h⟩ := Option.bind_eq_some_iff.mp h
    obtain ⟨n, hn, h⟩ := Option.bind_eq_some_iff.mp h
    obtain ⟨source, hsource, h⟩ := Option.bind_eq_some_iff.mp h
    split at h
    · rename_i hmatch
      cases h
      obtain ⟨rfl, rfl⟩ := hmatch
      exact ⟨o, _, _, _, ho, hfields, Option.bind_eq_some_iff.mpr ⟨_, hversion, hn⟩, hsource, hheld⟩
    · cases h
  · cases h

/-- For the key that it stands for, no record is read from a stray file. -/
theorem IsStray.read_none (h : IsStray file content) (hk : Keyed file key) :
    SourceRecord.readStored? key content = none := by
  rw [Option.eq_none_iff_forall_ne_some]
  intro r hread
  rcases h with hname | hother
  · exact hname hk.named
  · exact (hother _ _ _ (says_of_read hread)).elim (· rfl) (· hk.stands)

theorem target_file (hsteps : ∀ name ∈ file, IsStep name) (dir : String) :
    target (join dir (ofNames file)) = target dir ++ file :=
  follow_join_names hsteps [] dir

/-- Where files are legible they stay so when one more is put into place. -/
theorem Legible.wrote (h : Legible dir t) (hsteps : ∀ name ∈ file, IsStep name)
    (hw : Wrote t t' (join dir (ofNames file)) content true) : Legible dir t' := by
  have hplace := target_file hsteps dir
  refine ⟨fun other hother hlist => ?_, fun other key held hk hheld => ?_⟩
  · rcases hw.lists _ hlist with hlist | ⟨-, heq⟩
    · exact h.steps other hother hlist
    · rw [hplace] at heq
      rwa [List.append_cancel_left heq]
  · rw [hk.path]
    by_cases heq : other = file
    · subst heq
      have hread := hw.written rfl
      have hcontent := (read_ok.mp hread).2
      rw [hplace, hheld] at hcontent
      rw [hread, Option.some.inj hcontent]
    · have hsame := hw.others (target dir ++ other) fun hq => heq (List.append_cancel_left (hq.trans hplace))
      refine read_keeps hw.keeps ?_ (hk.path dir ▸ h.reads other key held hk (hsame.symm.trans hheld))
      rw [target_file hk.steps, hsame]

/-- A file that is put into place changes what is found for the key that it stands for, and nothing else. -/
theorem Legible.load_wrote (h : Legible dir t) (hsteps : ∀ name ∈ file, IsStep name)
    (hw : Wrote t t' (join dir (ofNames file)) content true) (key : String) :
    (Keyed file key → (Manifest.load t' dir).get? key = SourceRecord.readStored? key content) ∧
    (¬Keyed file key → (Manifest.load t' dir).get? key = (Manifest.load t dir).get? key) := by
  have hplace := target_file hsteps dir
  have hlegible := h.wrote hsteps hw
  constructor
  · intro hk
    refine Option.ext fun r => ?_
    have hcontent := (read_ok.mp (hw.written rfl)).2
    rw [hplace] at hcontent
    rw [hlegible.load_get, hlegible.load_record hk, hcontent, Option.bind_some,
      and_iff_right ⟨file, hk⟩]
  · intro hk
    refine h.load_same hlegible fun other hother => hw.others _ fun heq => hk ?_
    rw [hplace] at heq
    rwa [List.append_cancel_left heq] at hother

theorem wrote_file (hne : file ≠ []) (hsteps : ∀ name ∈ file, IsStep name)
    (hwrite : t.write (join dir (ofNames file)) content = (t', true)) :
    Wrote t t' (join dir (ofNames file)) content true := by
  have hwrote := FileTree.write_wrote (t := t) ((ends_of_names hne hsteps).join dir) content
  rwa [hwrite] at hwrote

/-- In a directory without files all is legible, and there is no record. -/
theorem legible_nothing (h : t.filesBelow (target dir) = []) :
    Legible dir t ∧ Manifest.load t dir = .empty := by
  have hnone (file : List String) (hfile : Manifest.IsRecordFile file) :
      ¬t.Lists (target dir ++ file) := fun hlist => by
    have hmem := mem_files_below.mpr ⟨hfile.ne_nil, hlist⟩
    rw [h] at hmem
    cases hmem
  refine ⟨⟨fun file hfile hlist => absurd hlist (hnone file hfile), fun file key content hk hcontent =>
    absurd (lists_of_content hcontent) (hnone file hk.named)⟩, Manifest.ext_get fun key => ?_⟩
  rw [show Manifest.empty.get? key = none from rfl, Option.eq_none_iff_forall_ne_some]
  intro r hget
  obtain ⟨file, hfile, -⟩ := List.mem_filterMap.mp (Manifest.load_get hget).1
  obtain ⟨-, -, hbelow, -⟩ := Manifest.mem_record_files.mp hfile
  rw [h] at hbelow
  cases hbelow

theorem Deposited.found (h : Deposited dir t m t') (hempty : t.filesBelow (target dir) = []) :
    Legible dir t' ∧ Manifest.load t' dir = m := by
  induction h with
  | nothing => exact legible_nothing hempty
  | record h hsource htime hwrite ih =>
    obtain ⟨hlegible, rfl⟩ := ih
    have hown := keyed_source hsource
    rw [hown.path] at hwrite
    have hw := wrote_file hown.named.ne_nil hown.steps hwrite
    refine ⟨hlegible.wrote hown.steps hw, Manifest.ext_get fun key => ?_⟩
    obtain ⟨hself, hother⟩ := hlegible.load_wrote hown.steps hw key
    rw [Manifest.get_insert]
    split
    · rename_i hkey
      rw [hself (hkey ▸ hown), hkey, SourceRecord.read_stored, if_pos rfl, htime]
      rfl
    · rename_i hkey
      exact hother fun hk => hkey (hk.key_unique hown)
  | @stray m t' t'' file content h hne hsteps hstray hbeside hwrite ih =>
    obtain ⟨hlegible, rfl⟩ := ih
    have hw := wrote_file hne hsteps hwrite
    refine ⟨hlegible.wrote hsteps hw, Manifest.ext_get fun key => ?_⟩
    obtain ⟨hself, hother⟩ := hlegible.load_wrote hsteps hw key
    by_cases hk : Keyed file key
    · rw [hself hk, hstray.read_none hk, hbeside key hk.stands]
    · exact hother hk
  | spoiled h hsteps hstray hname hkey hwrite ih =>
    obtain ⟨hlegible, rfl⟩ := ih
    have hk : Keyed _ _ := ⟨hname, hsteps, hkey⟩
    have hw := wrote_file hname.ne_nil hsteps hwrite
    refine ⟨hlegible.wrote hsteps hw, Manifest.ext_get fun other => ?_⟩
    obtain ⟨hself, hother⟩ := hlegible.load_wrote hsteps hw other
    rw [Manifest.get_without]
    split
    · rename_i heq
      subst heq
      rw [hself hk, hstray.read_none hk]
    · rename_i hne
      exact hother fun hk' => hne (hk'.key_unique hk)

/-- Different sources have different record files, in any directory, and the file of a source tells its key.
So whatever records are written into an empty directory, and whatever other files are put there, the directory
gives back for each key the record that was written last. -/
theorem stored_records_found (dir : String) :
    (∀ s t, IsSource s → IsSource t →
      Path.same (Manifest.recordPath dir (keyOf s)) (Manifest.recordPath dir (keyOf t)) = true ∨
        target (Manifest.recordPath dir (keyOf s)) = target (Manifest.recordPath dir (keyOf t)) →
      keyOf s = keyOf t) ∧
    (∀ s, IsSource s → ∃ file, stripBase? (components dir)
        (components (Manifest.recordPath dir (keyOf s))) = some (file.map .normal) ∧
      Manifest.keyOfRecord? file = some (keyOf s)) ∧
    ∀ t m t', t.filesBelow (target dir) = [] → Deposited dir t m t' → Manifest.load t' dir = m := by
  refine ⟨fun s t hs ht hsame => ?_, fun s hs => ⟨renamed recordName s, ?_, key_of_record hs⟩,
    fun t m t' hempty h => (h.found hempty).2⟩
  · have hfile : renamed recordName s = renamed recordName t := by
      rcases hsame with hsame | hsame
      · rw [Path.same, beq_iff_eq, record_components hs, record_components ht] at hsame
        exact List.map_inj_right (fun _ _ => Component.normal.inj) |>.mp (List.append_cancel_left hsame)
      · rw [target_record_in hs, target_record_in ht] at hsame
        exact List.append_cancel_left hsame
    rw [(record_file_inj hs ht).mp hfile]
  · exact strip_base_iff.mpr (record_components hs dir)

section Example

def early : SourceRecord :=
  ⟨default, [], ⟨1, 0⟩⟩

def late : SourceRecord :=
  ⟨default, [], ⟨2, 0⟩⟩

/-- Records of two sources, one of which is named like a record itself, with a note and half a record between
them; then the first source gets another record. -/
def depositedFiles : FileTree :=
  let files := [(Manifest.recordPath "/m" (keyOf ["a"]), early.storedText (keyOf ["a"])),
    (Manifest.recordPath "/m" (keyOf ["a.json"]), early.storedText (keyOf ["a.json"])),
    (join "/m" (ofNames ["notes.txt"]), ""), (join "/m" (ofNames ["sub", "b.json"]), "\x7b"),
    (Manifest.recordPath "/m" (keyOf ["a"]), late.storedText (keyOf ["a"]))]
  files.foldl (fun t f => (t.write f.1 f.2.toUTF8).1) {}

theorem early_time : Instant.read? early.writtenAt.text = some early.writtenAt := by decide +kernel

theorem late_time : Instant.read? late.writtenAt.text = some late.writtenAt := by decide +kernel

theorem half_record_stray : IsStray ["sub", "b.json"] "\x7b".toUTF8 := by
  refine .inr fun version source r h => ?_
  obtain ⟨o, _, _, _, ho, -⟩ := h
  rw [Json.Outline.ofBytes?, from_utf8] at ho
  have hnone : Json.Outline.ofText? "\x7b" = none := by decide +kernel
  cases hnone.symm.trans ho

theorem note_stray : IsStray ["notes.txt"] "".toUTF8 := by
  refine .inl ?_
  rw [Manifest.IsRecordFile]
  decide +kernel

/-- Names that only look alike are told apart, and the records written last are found among other files. -/
theorem stored_records_found_json :
    Path.same (Manifest.recordPath "/m" "a") (Manifest.recordPath "/m" "a.json") = false ∧
    (∃ file, stripBase? (components "/m") (components (Manifest.recordPath "/m" "a.json")) =
      some (file.map .normal) ∧ Manifest.keyOfRecord? file = some "a.json") ∧
    Manifest.load depositedFiles "/m" = (Manifest.empty.insert "a.json" early).insert "a" late := by
  obtain ⟨hinj, hfile, hload⟩ := stored_records_found "/m"
  have ha : IsSource ["a"] := ⟨by decide, List.forall_mem_singleton.mpr
    ⟨by decide, by decide, by decide, by decide⟩⟩
  have hjson : IsSource ["a.json"] := ⟨by decide, List.forall_mem_singleton.mpr
    ⟨by decide, by decide, by decide, by decide⟩⟩
  refine ⟨?_, hfile ["a.json"] hjson, ?_⟩
  · rw [Bool.eq_false_iff]
    exact fun hsame => absurd (hinj _ _ ha hjson (.inl hsame)) (by decide)
  · have hnote : ∀ name ∈ ["notes.txt"], IsStep name :=
      List.forall_mem_singleton.mpr ⟨by decide, by decide, by decide, by decide⟩
    have hhalf : ∀ name ∈ ["sub", "b.json"], IsStep name := by
      rw [List.forall_mem_cons, List.forall_mem_singleton]
      exact ⟨⟨by decide, by decide, by decide, by decide⟩, by decide, by decide, by decide, by decide⟩
    have hnoteKey : Manifest.keyOfRecord? ["notes.txt"] = none := by decide +kernel
    have hhalfKey : Manifest.keyOfRecord? ["sub", "b.json"] = some "sub/b" := by decide +kernel
    have h : Deposited "/m" {} .empty {} := .nothing
    have h := h.record ha early_time (Prod.ext rfl (by decide +kernel))
    have h := h.record hjson early_time (Prod.ext rfl (by decide +kernel))
    have h := h.stray (List.cons_ne_nil _ _) hnote note_stray
      (fun key hkey => nomatch hnoteKey.symm.trans hkey) (Prod.ext rfl (by decide +kernel))
    have h := h.stray (List.cons_ne_nil _ _) hhalf half_record_stray (fun key hkey => by
      obtain rfl := Option.some.inj (hhalfKey.symm.trans hkey)
      decide +kernel) (Prod.ext rfl (by decide +kernel))
    have h := h.record ha late_time (Prod.ext rfl (by decide +kernel))
    have hfound := hload {} _ depositedFiles (by decide +kernel) h
    rw [hfound]
    decide +kernel

end Example

end DocForms.Cache
