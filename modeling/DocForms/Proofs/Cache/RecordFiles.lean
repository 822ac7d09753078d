import DocForms.Proofs.Cache.Runs
import DocForms.Proofs.Time.Instants

namespace DocForms.Cache
open DocForms.Path FileTree

attribute [local irreducible] Path.join

variable {env : Environment} {dir key : String} {c c' : Cache} {disk disk' : Disk}
  {t t' t'' : FileTree} {file : List String} {names : SourceNames} {r : SourceRecord}
  {new new' : SourceNames → SourceRecord → Prop}

/-- The file that a source has among the records stands for its key. -/
theorem key_of_record (h : IsSource names) :
    Manifest.keyOfRecord? (renamed recordName names) = some (keyOf names) := by
  have hpieces : pieces (keyOf names) = names := pieces_of_names h.ne_nil h.steps
  rw [Manifest.keyOfRecord?, renamed, recordName, of_names_extend, ← h.split.1,
    Manifest.drop_extension, some_bind, ← keyOf]
  refine if_neg ?_
  rintro (hempty | hslash)
  · rw [String.isEmpty_iff.mp hempty, pieces_empty] at hpieces
    exact (h.steps "" (hpieces ▸ List.mem_singleton_self _)).not_empty rfl
  · obtain ⟨b, -, hb⟩ := cut_last_slash hslash
    rw [hpieces] at hb
    exact (h.steps "" (hb ▸ by simp)).not_empty rfl

/-- A file that is named like a record, and the key that it stands for. -/
structure Keyed (file : List String) (key : String) : Prop where
  named : Manifest.IsRecordFile file
  steps : ∀ name ∈ file, IsStep name
  stands : Manifest.keyOfRecord? file = some key

/-- A file has the names of its key and the extension of records. The last name of the key need not be a
step: a file may be called `..json`. -/
theorem Keyed.split (h : Keyed file key) : ∃ above last, (∀ name ∈ above, IsStep name) ∧
    '/' ∉ last.toList ∧ file = above ++ [recordName last] ∧ pieces key = above ++ [last] := by
  obtain ⟨name, hname, hsuffix⟩ := (Option.any_eq_true _ _).mp h.named
  obtain ⟨above, rfl⟩ := List.getLast?_eq_some_iff.mp hname
  obtain ⟨front, hfront⟩ := List.isSuffixOf_iff_suffix.mp hsuffix
  have hlast : name = recordName (String.ofList front) := by
    rw [← String.toList_inj, ← hfront, recordName, String.toList_append, String.toList_ofList]
  obtain ⟨habove, hstep⟩ := List.forall_mem_append.mp h.steps
  have hslash : '/' ∉ (String.ofList front).toList := fun hmem =>
    (List.forall_mem_singleton.mp hstep).no_slash <| by
      rw [hlast, recordName, String.toList_append]
      exact List.mem_append_left _ hmem
  refine ⟨above, String.ofList front, habove, hslash, by rw [hlast], ?_⟩
  have hkey := h.stands
  rw [hlast, Manifest.keyOfRecord?, recordName, of_names_extend, Manifest.drop_extension,
    some_bind] at hkey
  split at hkey
  · cases hkey
  · rw [← Option.some.inj hkey]
    refine pieces_of_slashless (by simp) ?_
    rw [List.forall_mem_append, List.forall_mem_singleton]
    exact ⟨fun name hname => (habove name hname).no_slash, hslash⟩

/-- The path of the record for a key leads to the file that stands for the key. -/
theorem Keyed.path (h : Keyed file key) (dir : String) :
    Manifest.recordPath dir key = join dir (ofNames file) := by
  obtain ⟨above, last, habove, hlast, rfl, hpieces⟩ := h.split
  rw [Manifest.recordPath, hpieces, push_key_join habove hlast]

theorem Keyed.target (h : Keyed file key) (dir : String) :
    target (Manifest.recordPath dir key) = target dir ++ file := by
  rw [h.path]
  exact follow_join_names h.steps [] dir

/-- A file stands for one key. -/
theorem Keyed.key_unique {other : String} (h : Keyed file key) (h' : Keyed file other) :
    key = other :=
  Option.some.inj (h.stands.symm.trans h'.stands)

theorem keyed_source (h : IsSource names) : Keyed (renamed recordName names) (keyOf names) :=
  ⟨record_file_renamed names, h.record_steps, key_of_record h⟩

/-- No artifact is named like a record. -/
theorem artifact_no_record_file {format : ArtifactFormat} {s : SourceNames} {p : Place}
    {file : List String} (h : p ++ file = c.artifactPlace s format) :
    ¬Manifest.IsRecordFile file := by
  intro hfile
  obtain ⟨name, hname, hsuffix⟩ := (Option.any_eq_true _ _).mp hfile
  have hlast := congrArg List.getLast? h
  rw [List.getLast?_append, hname, Option.some_or, artifactPlace, renamed, ← List.append_assoc,
    List.getLast?_concat, Option.some.injEq] at hlast
  obtain ⟨front, hfront⟩ := List.isSuffixOf_iff_suffix.mp hsuffix
  have hend := last_of_artifact_name format (s.getLast?.getD "")
  rw [← hlast, ← hfront, List.getLast?_append] at hend
  cases format <;> cases hend

/-- An attempt to save the record of a source. -/
structure Filing where
  names : SourceNames
  record : SourceRecord
  saved : Bool

/-- What attempts to save records did to the files of records. -/
structure Filed (dir : String) (filings : List Filing) (t t' : FileTree) : Prop where
  sources : ∀ f ∈ filings, IsSource f.names
  keeps : t.Keeps t'
  listed : ∀ file, Manifest.IsRecordFile file → t'.Lists (target dir ++ file) →
    t.Lists (target dir ++ file) ∨ ∃ s, IsSource s ∧ file = renamed recordName s
  saved : ∀ f ∈ filings, f.saved = true →
    t'.read (Manifest.recordPath dir (keyOf f.names)) =
      .ok (f.record.storedText (keyOf f.names)).toUTF8
  others : ∀ file key, Keyed file key → (∀ f ∈ filings, f.saved = true → keyOf f.names ≠ key) →
    t'.contentAt? (target dir ++ file) = t.contentAt? (target dir ++ file)

theorem Filed.none (hkeeps : t.Keeps t') (hcontents : ∀ q, t'.contentAt? q = t.contentAt? q)
    (hlists : ∀ q, t'.Lists q → t.Lists q) : Filed dir [] t t' :=
  ⟨List.forall_mem_nil _, hkeeps, fun _ _ hq => .inl (hlists _ hq), List.forall_mem_nil _,
    fun _ _ _ _ => hcontents _⟩

/-- Files that others change are no record files. -/
theorem Edited.filed (h : Edited (target dir) t t') : Filed dir [] t t' := by
  refine ⟨List.forall_mem_nil _, h.keeps, fun file hfile hlist => .inl ?_, List.forall_mem_nil _,
    fun file key hk _ => h.contents file hk.named⟩
  exact (mem_files_below.mp (h.listed file hfile (mem_files_below.mpr ⟨hfile.ne_nil, hlist⟩))).2

/-- Records of different sources are saved one after another. -/
theorem Filed.append {first second : List Filing} (h : Filed dir first t t')
    (h' : Filed dir second t' t'')
    (hapart : ∀ f ∈ first, ∀ g ∈ second, keyOf f.names ≠ keyOf g.names) :
    Filed dir (first ++ second) t t'' := by
  refine ⟨List.forall_mem_append.mpr ⟨h.sources, h'.sources⟩, h.keeps.trans h'.keeps,
    fun file hfile hlist => (h'.listed file hfile hlist).elim (h.listed file hfile) .inr,
    List.forall_mem_append.mpr ⟨fun f hf hsaved => ?_, h'.saved⟩, fun file key hk hnone => ?_⟩
  · have hk := keyed_source (h.sources f hf)
    refine read_keeps h'.keeps ?_ (h.saved f hf hsaved)
    rw [hk.target]
    exact h'.others _ _ hk fun g hg _ => (hapart f hf g hg).symm
  · obtain ⟨hfirst, hsecond⟩ := List.forall_mem_append.mp hnone
    exact (h'.others file key hk hsecond).trans (h.others file key hk hfirst)

theorem Filed.wrote {saved : Bool} (hsource : IsSource names)
    (hw : Wrote t t' (Manifest.recordPath dir (keyOf names)) (r.storedText (keyOf names)).toUTF8
      saved) : Filed dir [⟨names, r, saved⟩] t t' := by
  have hown := keyed_source hsource
  have htarget := hown.target dir
  refine ⟨List.forall_mem_singleton.mpr hsource, hw.keeps, fun file _ hlist => ?_,
    List.forall_mem_singleton.mpr hw.written, fun file key hk hnone => ?_⟩
  · refine (hw.lists _ hlist).imp_right fun ⟨_, hplace⟩ => ?_
    rw [htarget] at hplace
    exact ⟨names, hsource, List.append_cancel_left hplace⟩
  · by_cases hplace : target dir ++ file = target (Manifest.recordPath dir (keyOf names))
    · rw [hplace]
      refine hw.failed (Bool.eq_false_iff.mpr fun hsaved => ?_)
      rw [htarget] at hplace
      obtain rfl := List.append_cancel_left hplace
      exact List.forall_mem_singleton.mp hnone hsaved (hown.key_unique hk)
    · exact hw.others _ hplace

theorem persist_all_cons {key : String} {rest : List (String × SourceRecord)} {failed : List String}
    (h : c.persistAll env disk ((key, r) :: rest) = (disk', failed)) :
    ∃ disk₁ saved others, c.persist env disk key r = (disk₁, saved) ∧
      c.persistAll env disk₁ rest = (disk', others) ∧
      failed = if saved then others else key :: others := by
  obtain ⟨rfl, rfl⟩ := Prod.mk.inj h
  exact ⟨_, _, _, rfl, rfl, rfl⟩

/-- Records that are to be saved, all of them for sources. -/
def OfSources (waiting : List (String × SourceRecord)) : Prop :=
  ∀ e ∈ waiting, ∃ names, IsSource names ∧ e.1 = keyOf names

/-- The records that wait are saved one after another. -/
theorem persist_all_filed {waiting : List (String × SourceRecord)} {failed : List String}
    (hkeys : OfSources waiting) (hnodup : (waiting.map Prod.fst).Nodup)
    (hp : c.persistAll env disk waiting = (disk', failed)) :
    ∃ filings : List Filing, Filed c.manifestDir filings disk.tree disk'.tree ∧
      (filings.map fun f => (keyOf f.names, f.record)) = waiting ∧
      failed = ((filings.filter (!·.saved)).map fun f => keyOf f.names) ∧
      disk'.readings = disk.readings := by
  induction waiting generalizing disk failed with
  | nil =>
    obtain ⟨rfl, rfl⟩ := Prod.mk.inj hp
    exact ⟨[], .none (.refl _) (fun _ => rfl) fun _ h => h, rfl, rfl, rfl⟩
  | cons e rest ih =>
    obtain ⟨key, r⟩ := e
    obtain ⟨disk₁, saved, others, hfirst, hrest, rfl⟩ := persist_all_cons hp
    obtain ⟨⟨names, hsource, hkey⟩, hrestKeys⟩ := List.forall_mem_cons.mp hkeys
    obtain rfl : key = keyOf names := hkey
    obtain ⟨hnew, hnodup⟩ := List.nodup_cons.mp hnodup
    obtain ⟨hwrote, hreadings⟩ := persist_wrote hsource hfirst
    obtain ⟨filings, hfiled, rfl, rfl, hreadings'⟩ := ih hrestKeys hnodup hrest
    refine ⟨⟨names, r, saved⟩ :: filings, Filed.append (.wrote hsource hwrote) hfiled ?_, rfl, ?_,
      hreadings'.trans hreadings⟩
    · refine List.forall_mem_singleton.mpr fun g hg heq => hnew ?_
      exact List.mem_map.mpr ⟨_, List.mem_map_of_mem hg, heq.symm⟩
    · cases saved <;> rfl

/-- The settling of a source attempts to save one record. -/
theorem Settles.filed {bytes buffer : ByteArray} {text : String} {made : Published}
    (h : Settles env c disk disk' names bytes text buffer made) (hsource : IsSource names) :
    Filed c.manifestDir [⟨names, made.record, made.saved⟩] disk.tree disk'.tree := by
  have hown := keyed_source hsource
  refine ⟨List.forall_mem_singleton.mpr hsource, h.keeps, fun file hfile hlist => ?_,
    List.forall_mem_singleton.mpr h.makes.read_record, fun file key hk hnone => ?_⟩
  · rcases h.lists _ hlist with hlist | hplace | ⟨format, hplace⟩ | hplace
    · exact .inl hlist
    · exact absurd ⟨file, hplace⟩ h.outside.records
    · exact absurd hfile (artifact_no_record_file hplace)
    · exact .inr ⟨names, hsource, List.append_cancel_left hplace⟩
  · by_cases hfile : file = renamed recordName names
    · subst hfile
      rw [← hown.target]
      refine h.makes.kept_record (Bool.eq_false_iff.mpr fun hsaved => ?_)
      exact List.forall_mem_singleton.mp hnone hsaved (hown.key_unique hk)
    · refine h.others _ (fun hplace => h.outside.records ⟨file, hplace⟩)
        (fun format hplace => artifact_no_record_file hplace hk.named) fun hplace => hfile ?_
      exact List.append_cancel_left hplace

/-- The records that are to be saved, in the order in which they are saved. -/
def waiting (c : Cache) : List (String × SourceRecord) :=
  c.manifest.entries.filter fun e => c.pending.contains e.1

theorem mem_waiting : (key, r) ∈ c.waiting ↔ c.manifest.get? key = some r ∧ key ∈ c.pending := by
  rw [waiting, List.mem_filter, Manifest.get_iff, List.contains_iff_mem]

theorem waiting_nodup (c : Cache) : (c.waiting.map Prod.fst).Nodup :=
  c.manifest.keys_nodup.sublist (List.filter_sublist.map _)

theorem save_eq {result : Except Failure Unit} (h : c.save env disk = (disk', c', result)) :
    ∃ failed, c.persistAll env disk c.waiting = (disk', failed) ∧
      c' = { c with pending := failed } := by
  obtain ⟨rfl, hrest⟩ := Prod.mk.inj h
  obtain ⟨rfl, -⟩ := Prod.mk.inj hrest
  exact ⟨_, rfl, rfl⟩

theorem save_alike {result : Except Failure Unit} (h : c.save env disk = (disk', c', result)) :
    c.Alike c' := by
  obtain ⟨failed, -, rfl⟩ := save_eq h
  exact ⟨rfl, rfl⟩

/-- Saving attempts to save the records that wait; those that are not saved wait on. No clock is read. -/
theorem save_filed (hkeys : OfSources c.waiting) {result : Except Failure Unit}
    (h : c.save env disk = (disk', c', result)) :
    ∃ filings : List Filing, Filed c.manifestDir filings disk.tree disk'.tree ∧
      (filings.map fun f => (keyOf f.names, f.record)) = c.waiting ∧
      c' = { c with pending := (filings.filter (!·.saved)).map fun f => keyOf f.names } ∧
      disk'.readings = disk.readings := by
  obtain ⟨failed, hp, rfl⟩ := save_eq h
  obtain ⟨filings, hfiled, hwaiting, rfl, hreadings⟩ := persist_all_filed hkeys c.waiting_nodup hp
  exact ⟨filings, hfiled, hwaiting, rfl, hreadings⟩

/-- The attempt for a record that has waited, which was saved if its key does not wait any longer. -/
theorem filing_of_waiting {filings : List Filing}
    (hwaiting : (filings.map fun f => (keyOf f.names, f.record)) = c.waiting)
    (hget : c.manifest.get? key = some r) (hpending : key ∈ c.pending)
    (hdone : key ∉ (filings.filter (!·.saved)).map fun f => keyOf f.names) :
    ∃ f ∈ filings, f.saved = true ∧ keyOf f.names = key ∧ f.record = r := by
  have hmem : (key, r) ∈ c.waiting := mem_waiting.mpr ⟨hget, hpending⟩
  rw [← hwaiting] at hmem
  obtain ⟨f, hf, hpair⟩ := List.mem_map.mp hmem
  obtain ⟨rfl, rfl⟩ := Prod.mk.inj hpair
  refine ⟨f, hf, ?_, rfl, rfl⟩
  by_contra hunsaved
  exact hdone (List.mem_map_of_mem (List.mem_filter.mpr ⟨hf, by simp [hunsaved]⟩))

/-- The record files of sources are as they were, apart from those that were written with a record that
is new for its source. Nothing else came to be named like a record. -/
structure Replaced (dir : String) (new : SourceNames → SourceRecord → Prop) (t t' : FileTree) :
    Prop where
  keeps : t.Keeps t'
  files : ∀ names, IsSource names →
    t'.contentAt? (recordPlaceIn dir names) = t.contentAt? (recordPlaceIn dir names) ∨
    ∃ r, new names r ∧
      t'.read (Manifest.recordPath dir (keyOf names)) = .ok (r.storedText (keyOf names)).toUTF8
  listed : ∀ file, Manifest.IsRecordFile file → t'.Lists (target dir ++ file) →
    t.Lists (target dir ++ file) ∨ ∃ s, IsSource s ∧ file = renamed recordName s

theorem Replaced.kept (hkeeps : t.Keeps t') (hcontents : ∀ q, t'.contentAt? q = t.contentAt? q)
    (hlists : ∀ q, t'.Lists q → t.Lists q) : Replaced dir new t t' :=
  ⟨hkeeps, fun _ _ => .inl (hcontents _), fun _ _ h => .inl (hlists _ h)⟩

theorem Replaced.refl (t : FileTree) : Replaced dir new t t :=
  .kept (.refl t) (fun _ => rfl) fun _ h => h

theorem Replaced.mono (h : Replaced dir new t t') (hnew : ∀ names r, new names r → new' names r) :
    Replaced dir new' t t' := by
  refine ⟨h.keeps, fun names hsource => (h.files names hsource).imp_right ?_, h.listed⟩
  rintro ⟨r, hr, hread⟩
  exact ⟨r, hnew names r hr, hread⟩

theorem Replaced.trans (h : Replaced dir new t t') (h' : Replaced dir new t' t'') :
    Replaced dir new t t'' := by
  refine ⟨h.keeps.trans h'.keeps, fun names hsource => ?_, fun file hfile hlist =>
    (h'.listed file hfile hlist).elim (h.listed file hfile) .inr⟩
  rcases h'.files names hsource with hsame | hwritten
  · rcases h.files names hsource with hfirst | ⟨r, hr, hread⟩
    · exact .inl (hsame.trans hfirst)
    · refine .inr ⟨r, hr, read_keeps h'.keeps ?_ hread⟩
      rw [target_record_in hsource]
      exact hsame
  · exact .inr hwritten

/-- What a file of a source holds afterwards was there before or is a new record. -/
theorem Replaced.content (h : Replaced dir new t t') (hsource : IsSource names) {content : ByteArray}
    (hcontent : t'.contentAt? (recordPlaceIn dir names) = some content) :
    t.contentAt? (recordPlaceIn dir names) = some content ∨
      ∃ r, new names r ∧ content = (r.storedText (keyOf names)).toUTF8 := by
  rcases h.files names hsource with hsame | ⟨r, hr, hread⟩
  · exact .inl (hsame.symm.trans hcontent)
  · have hwritten := (read_ok.mp hread).2
    rw [target_record_in hsource] at hwritten
    exact .inr ⟨r, hr, Option.some.inj (hcontent.symm.trans hwritten)⟩

/-- A record that is loaded for a source was read from what the file of the source holds. -/
theorem load_record_content (hsource : IsSource names)
    (hload : Manifest.loadRecord? t dir (keyOf names) = some r) :
    ∃ content, t.contentAt? (recordPlaceIn dir names) = some content ∧
      SourceRecord.readStored? (keyOf names) content = some r := by
  obtain ⟨content, hread, hstored⟩ := Manifest.load_record_some.mp hload
  rw [← target_record_in hsource dir]
  exact ⟨content, (read_ok.mp hread).2, hstored⟩

/-- Records are as they were where directories stay and record files are left alone. -/
theorem load_record_same (hk : t.Keeps t') (hsource : IsSource names)
    (hsame : t'.contentAt? (recordPlaceIn dir names) = t.contentAt? (recordPlaceIn dir names))
    (h : Manifest.loadRecord? t dir (keyOf names) = some r) :
    Manifest.loadRecord? t' dir (keyOf names) = some r := by
  refine Manifest.load_record_keeps hk ?_ h
  rw [target_record_in hsource dir]
  exact hsame

/-- A record with a time that can be kept is loaded as it was written. -/
theorem load_written (hkept : r.writtenAt.IsKept)
    (h : t.read (Manifest.recordPath dir (keyOf names)) = .ok (r.storedText (keyOf names)).toUTF8) :
    Manifest.loadRecord? t dir (keyOf names) = some r := by
  rw [Manifest.load_record_written h, Instant.read_text hkept]
  rfl

/-- A record that was on disk is there still, or one that is new took its place. -/
theorem Replaced.load (h : Replaced dir new t t')
    (hkept : ∀ held, new names held → held.writtenAt.IsKept) (hsource : IsSource names)
    (hload : Manifest.loadRecord? t dir (keyOf names) = some r) :
    ∃ r', Manifest.loadRecord? t' dir (keyOf names) = some r' ∧ (r' = r ∨ new names r') := by
  rcases h.files names hsource with hsame | ⟨held, hnew, hread⟩
  · exact ⟨r, load_record_same h.keeps hsource hsame hload, .inl rfl⟩
  · exact ⟨held, load_written (hkept held hnew) hread, .inr hnew⟩

theorem Filed.replaced {filings : List Filing} (h : Filed dir filings t t') :
    Replaced dir (fun names r => ∃ f ∈ filings, f.names = names ∧ f.record = r) t t' := by
  refine ⟨h.keeps, fun names hsource => ?_, h.listed⟩
  by_cases hsaved : ∃ f ∈ filings, f.saved = true ∧ keyOf f.names = keyOf names
  · obtain ⟨f, hf, hsaved, hkey⟩ := hsaved
    obtain rfl := key_inj (h.sources f hf) hsource hkey
    exact .inr ⟨f.record, ⟨f, hf, rfl, rfl⟩, h.saved f hf hsaved⟩
  · exact .inl (h.others _ _ (keyed_source hsource) fun f hf hs hkey => hsaved ⟨f, hf, hs, hkey⟩)

theorem Edited.replaced (h : Edited (target dir) t t') : Replaced dir new t t' :=
  h.filed.replaced.mono fun _ _ ⟨_, hf, _⟩ => (List.not_mem_nil hf).elim

/-- Saved records are those that were waiting. -/
theorem save_replaced (hkeys : OfSources c.waiting) {result : Except Failure Unit}
    (h : c.save env disk = (disk', c', result)) :
    Replaced c.manifestDir (fun names r => (keyOf names, r) ∈ c.waiting) disk.tree disk'.tree := by
  obtain ⟨filings, hfiled, hwaiting, -⟩ := save_filed hkeys h
  refine hfiled.replaced.mono ?_
  rintro names r ⟨f, hf, rfl, rfl⟩
  exact hwaiting ▸ List.mem_map_of_mem hf

/-- Of a source that was settled only its own record comes to be. -/
theorem Settles.replaced {bytes buffer : ByteArray} {text : String} {made : Published}
    (h : Settles env c disk disk' names bytes text buffer made) (hsource : IsSource names) :
    Replaced c.manifestDir (fun other held => other = names ∧ held = made.record) disk.tree
      disk'.tree := by
  refine (h.filed hsource).replaced.mono ?_
  rintro other held ⟨f, hf, rfl, rfl⟩
  obtain rfl := List.mem_singleton.mp hf
  exact ⟨rfl, rfl⟩

end DocForms.Cache
