import DocForms.Proofs.Cache.RecordFiles

namespace DocForms
open DocForms.Path FileTree

namespace Cache

attribute [local irreducible] Path.join

variable {env : Environment} {o : Options} {dir key : String} {history history' : History}
  {r : SourceRecord} {names : SourceNames}

/-- A record tells of a source that was settled, of what it was settled with, and of what was made of
that. -/
def Tells (o : Options) (history : History) (key : String) (r : SourceRecord) : Prop :=
  ∃ names bytes text buffer, IsSource names ∧ key = keyOf names ∧ (key, bytes) ∈ history ∧
    Derives bytes text buffer ∧
    r = recordOf o names (Fingerprint.of bytes) text buffer r.writtenAt

theorem Tells.mono (h : Tells o history key r) (hsub : history ⊆ history') :
    Tells o history' key r := by
  obtain ⟨names, bytes, text, buffer, hsource, hkey, hmem, hderives, hr⟩ := h
  exact ⟨names, bytes, text, buffer, hsource, hkey, hsub hmem, hderives, hr⟩

/-- The time of a record does not matter for what it tells. -/
theorem Tells.at_time (h : Tells o history key r) (time : Instant) :
    Tells o history key { r with writtenAt := time } := by
  obtain ⟨names, bytes, text, buffer, hsource, hkey, hmem, hderives, hr⟩ := h
  refine ⟨names, bytes, text, buffer, hsource, hkey, hmem, hderives, ?_⟩
  rw [hr]
  rfl

/-- All records of a manifest tell of sources that were settled. -/
def Knows (o : Options) (history : History) (m : Manifest) : Prop :=
  ∀ key r, m.get? key = some r → Tells o history key r

theorem Knows.mono {m : Manifest} (h : Knows o history m) (hsub : history ⊆ history') :
    Knows o history' m :=
  fun key r hget => (h key r hget).mono hsub

/-- All files in a directory that are named like records are records that tell of sources that were
settled. -/
structure Stored (o : Options) (dir : String) (history : History) (t : FileTree) : Prop where
  told {names : SourceNames} {content : ByteArray} (hsource : IsSource names)
    (h : t.contentAt? (recordPlaceIn dir names) = some content) :
    ∃ r, content = (r.storedText (keyOf names)).toUTF8 ∧ Tells o history (keyOf names) r
  listed {names : List String} (hfile : Manifest.IsRecordFile names)
    (h : t.Lists (target dir ++ names)) : ∃ s, IsSource s ∧ names = renamed recordName s

variable {t t' : FileTree}

theorem Stored.mono (h : Stored o dir history t) (hsub : history ⊆ history') :
    Stored o dir history' t := by
  refine ⟨fun hsource hcontent => ?_, h.listed⟩
  obtain ⟨r, hr, htells⟩ := h.told hsource hcontent
  exact ⟨r, hr, htells.mono hsub⟩

/-- Record files may come to be and change, as long as new records tell of sources that were settled. -/
theorem Stored.replaced {new : SourceNames → SourceRecord → Prop} (h : Stored o dir history t)
    (hreplaced : Replaced dir new t t')
    (hnew : ∀ names r, new names r → Tells o history (keyOf names) r) : Stored o dir history t' := by
  refine ⟨fun {names content} hsource hcontent => ?_, fun {file} hfile hlist =>
    (hreplaced.listed file hfile hlist).elim (h.listed hfile) id⟩
  rcases hreplaced.content hsource hcontent with hcontent | ⟨r, hr, hcontent⟩
  · exact h.told hsource hcontent
  · exact ⟨r, hcontent, hnew names r hr⟩

theorem Stored.same (h : Stored o dir history t)
    (hsame : Replaced dir (fun _ _ => False) t t') : Stored o dir history t' :=
  h.replaced hsame nofun

theorem Stored.load_record (h : Stored o dir history t) (hsource : IsSource names)
    (hload : Manifest.loadRecord? t dir (keyOf names) = some r) :
    Tells o history (keyOf names) r := by
  obtain ⟨content, hcontent, hstored⟩ := load_record_content hsource hload
  obtain ⟨held, rfl, htells⟩ := h.told hsource hcontent
  rw [SourceRecord.read_stored, if_pos rfl] at hstored
  obtain ⟨time, -, rfl⟩ := Option.map_eq_some_iff.mp hstored
  exact htells.at_time time

theorem Stored.load (h : Stored o dir history t) : Knows o history (Manifest.load t dir) := by
  intro key r hget
  obtain ⟨hkeys, hload⟩ := Manifest.load_get hget
  obtain ⟨file, hmem, hkey⟩ := List.mem_filterMap.mp hkeys
  obtain ⟨-, -, hbelow, hfile⟩ := Manifest.mem_record_files.mp hmem
  obtain ⟨s, hsource, rfl⟩ := h.listed hfile (mem_files_below.mp hbelow).2
  obtain rfl := Option.some.inj ((key_of_record hsource).symm.trans hkey)
  exact h.load_record hsource hload

theorem Stored.recalled {c : Cache} {disk : Disk} (h : Stored o c.manifestDir history disk.tree)
    (hknows : Knows o history c.manifest) {m : Manifest} (hm : c.Recalls disk m) :
    Knows o history m := by
  intro key r hget
  rcases hm key r hget with hget | ⟨names, hsource, rfl, hload⟩
  · exact hknows key r hget
  · exact h.load_record hsource hload

/-- The record that comes of the settling of a source tells of it. -/
theorem Settles.tells {c : Cache} {disk disk' : Disk} {bytes buffer : ByteArray} {text : String}
    {made : Published} (h : Settles env c disk disk' names bytes text buffer made)
    (hsource : IsSource names) :
    Tells c.options ((keyOf names, bytes) :: history) (keyOf names) made.record := by
  refine ⟨names, bytes, text, buffer, hsource, rfl, List.mem_cons_self .., h.derives, ?_⟩
  rw [h.record]
  rfl

theorem Settles.stored {c : Cache} {disk disk' : Disk} {bytes buffer : ByteArray} {text : String}
    {made : Published} (h : Settles env c disk disk' names bytes text buffer made)
    (hsource : IsSource names) (hs : Stored c.options c.manifestDir history disk.tree) :
    Stored c.options c.manifestDir ((keyOf names, bytes) :: history) disk'.tree := by
  refine (hs.mono (List.subset_cons_self ..)).replaced (h.replaced hsource) ?_
  rintro other r ⟨rfl, rfl⟩
  exact h.tells hsource

/-- What is known after a record was added that tells of a source that was settled. -/
theorem Knows.insert {m : Manifest} (h : Knows o history m) (htells : Tells o history key r) :
    Knows o history (m.insert key r) := by
  intro other held hget
  rw [Manifest.get_insert] at hget
  split at hget
  · rename_i heq
    cases hget
    exact heq ▸ htells
  · exact h other held hget

/-- What turns keep: the records on disk and those that are known tell of sources that were settled, by
these turns or before. -/
theorem turns_tell {c c' : Cache} {disk disk' : Disk} {outcomes : Outcomes}
    (h : Turns env c disk history outcomes c' disk' history')
    (hstored : Stored c.options c.manifestDir history disk.tree)
    (hknows : Knows c.options history c.manifest) :
    history ⊆ history' ∧ Stored c.options c.manifestDir history' disk'.tree ∧
      Knows c.options history' c'.manifest := by
  induction h with
  | nil => exact ⟨List.Subset.refl _, hstored, hknows⟩
  | cons hturn _ ih =>
    have hlike := hturn.alike
    rw [hlike.options, hlike.manifest_dir] at ih
    cases hturn with
    | kept hmemory _ hkeeps hcontents hlists =>
      exact ih (hstored.same (.kept hkeeps hcontents hlists)) (hstored.recalled hknows hmemory)
    | settled hnames hmemory hsettles =>
      have hsource := source_names_ok hnames
      obtain ⟨hrest, hafter⟩ := ih (hsettles.stored hsource hstored)
        (((hstored.recalled hknows hmemory).mono (List.subset_cons_self ..)).insert
          (hsettles.tells hsource))
      exact ⟨List.Subset.trans (List.subset_cons_self ..) hrest, hafter⟩

/-- Records that wait to be saved tell of sources that were settled. -/
theorem waiting_tell {c : Cache} (h : Knows o history c.manifest) :
    ∀ e ∈ c.waiting, Tells o history e.1 e.2 :=
  fun e he => h e.1 e.2 (mem_waiting.mp he).1

theorem of_sources_of_tell {waiting : List (String × SourceRecord)}
    (h : ∀ e ∈ waiting, Tells o history e.1 e.2) : OfSources waiting := by
  intro e he
  obtain ⟨names, -, -, -, hsource, hkey, -⟩ := h e he
  exact ⟨names, hsource, hkey⟩

/-- All records, on disk and in the memory of users, tell of sources that were settled. -/
structure Truthful (root : String) (o : Options) (w : World) : Prop where
  users : ∀ c ∈ w.users, c.root = root ∧ c.options = o
  knows : ∀ c ∈ w.users, Knows o w.history c.manifest
  stored : Stored o (manifestPath root o) w.history w.disk.tree

variable {root : String} {w w' : World} {outcomes : Outcomes}

theorem new_truthful (h : w.IsNew root o) : Truthful root o w := by
  have hnone : ∀ names, Manifest.IsRecordFile names →
      ¬w.disk.tree.Lists (target (manifestPath root o) ++ names) := by
    intro names hfile hlist
    refine h.records names hfile (mem_files_below.mpr ⟨?_, hlist⟩)
    rintro rfl
    cases hfile
  refine ⟨by simp [h.users], by simp [h.users], fun {names content} _ hcontent => ?_,
    fun hfile hlist => absurd hlist (hnone _ hfile)⟩
  exact absurd (lists_of_content hcontent) (hnone _ (record_file_renamed names))

theorem change_truthful (hw : Truthful root o w) (h : Change env root o w outcomes w') :
    Truthful root o w' := by
  cases h with
  | opened =>
    refine ⟨?_, ?_, hw.stored⟩
    · rw [List.forall_mem_cons]
      exact ⟨⟨rfl, rfl⟩, hw.users⟩
    · rw [List.forall_mem_cons]
      exact ⟨hw.stored.load, hw.knows⟩
  | @turned before after c c' disk' _ history' husers h =>
    have hc : c ∈ w.users := by simp [husers]
    obtain ⟨rfl, rfl⟩ := hw.users c hc
    obtain ⟨hsub, hstored, hknows⟩ := turns_tell h hw.stored (hw.knows c hc)
    have hlike := h.alike
    exact ⟨replaced_all ⟨hlike.root, hlike.options⟩ (husers ▸ hw.users),
      replaced_all hknows (husers ▸ fun u hu => (hw.knows u hu).mono hsub), hstored⟩
  | @saved before after c c' disk' result husers h =>
    have hc : c ∈ w.users := by simp [husers]
    obtain ⟨rfl, rfl⟩ := hw.users c hc
    have htells := waiting_tell (hw.knows c hc)
    have hstored := hw.stored.replaced (save_replaced (of_sources_of_tell htells) h)
      fun names r => htells (keyOf names, r)
    obtain ⟨failed, -, rfl⟩ := save_eq h
    exact ⟨replaced_all ⟨rfl, rfl⟩ (husers ▸ hw.users),
      replaced_all (hw.knows c hc) (husers ▸ hw.knows), hstored⟩
  | edited h => exact ⟨hw.users, hw.knows, hw.stored.same h.replaced⟩

theorem reachable_truthful {condition : World → Outcomes → World → Prop}
    (h : Reachable env root o condition w) : Truthful root o w := by
  induction h with
  | start h => exact new_truthful h
  | step _ hstep _ ih => exact change_truthful ih (change_of_step hstep)

end Cache
end DocForms
