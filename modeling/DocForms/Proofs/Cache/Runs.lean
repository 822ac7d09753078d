import DocForms.Proofs.Cache.Turns

namespace DocForms.Cache
open DocForms.Path FileTree

attribute [local irreducible] Path.join

/-- The contents that sources were settled with, under the keys of the sources, the last one first. -/
abbrev History := List (String × ByteArray)

/-- The outcomes of operations on sources. -/
abbrev Outcomes := List (String × Except Failure Report)

/-- Notes what a source holds after an operation that settled it. -/
def note (c : Cache) (disk : Disk) (history : History)
    (outcome : String × Except Failure Report) : History :=
  match settles outcome.2, c.sourceNames outcome.1 with
  | true, .ok names =>
    match disk.tree.read (c.sourcePath names) with
    | .ok bytes => (keyOf names, bytes) :: history
    | .error _ => history
  | _, _ => history

/-- Two caches of one root with the same options. -/
structure Alike (c c' : Cache) : Prop where
  root : c'.root = c.root
  options : c'.options = c.options

section Alike
variable {c c' : Cache}

theorem Alike.refl (c : Cache) : c.Alike c := ⟨rfl, rfl⟩

theorem Alike.trans {c'' : Cache} (h : c.Alike c') (h' : c'.Alike c'') : c.Alike c'' :=
  ⟨h'.root.trans h.root, h'.options.trans h.options⟩

theorem Alike.source_names (h : c.Alike c') : c'.sourceNames = c.sourceNames := by
  funext source
  rw [sourceNames, sourceNames, relativeComponents?, relativeComponents?, h.root]

theorem Alike.source_path (h : c.Alike c') : c'.sourcePath = c.sourcePath := by
  funext names
  rw [sourcePath, sourcePath, h.root]

theorem Alike.manifest_dir (h : c.Alike c') : c'.manifestDir = c.manifestDir := by
  rw [manifestDir, manifestDir, h.root, h.options]

theorem Alike.outside (h : c.Alike c') {names : SourceNames} (ho : c.Outside names) :
    c'.Outside names := by
  obtain ⟨hartifacts, hrecords⟩ := ho
  refine ⟨?_, ?_⟩
  · rwa [home, sourcePlace, h.root, h.options, ← home, ← sourcePlace]
  · rwa [recordHome, h.manifest_dir, sourcePlace, h.root, ← recordHome, ← sourcePlace]

theorem Alike.note (h : c.Alike c') : c'.note = c.note := by
  funext disk history outcome
  rw [Cache.note, Cache.note, h.source_names, h.source_path]

end Alike

variable {env : Environment} {c c' : Cache} {disk disk' : Disk} {source : String}

theorem Turn.alike {result : Except Failure Report} {news : History}
    (h : Turn env c disk source disk' c' result news) : c.Alike c' := by
  cases h <;> exact ⟨rfl, rfl⟩

/-- What is noted after a turn is what the turn settled, as long as the source is left alone. -/
theorem note_turn {result : Except Failure Report} {news : History} (history : History)
    (h : Turn env c disk source disk' c' result news) {later : Disk}
    (hsame : ∀ names bytes, IsSource names → c.Outside names →
      disk'.tree.read (c.sourcePath names) = .ok bytes →
      later.tree.read (c.sourcePath names) = .ok bytes) :
    c.note later history (source, result) = news ++ history := by
  cases h with
  | kept hmemory hresult =>
    rw [note]
    dsimp only
    rw [hresult]
    rfl
  | @settled _ names bytes _ _ made hnames hmemory hsettles =>
    have hread := hsame names bytes (source_names_ok hnames) hsettles.outside hsettles.source
    rw [note]
    dsimp only
    rw [settles_outcome, hnames]
    dsimp only
    rw [hread]
    rfl

/-- Making files again leaves the sources as they are. -/
theorem regenerate_one_sources {result : Except Failure Report}
    (h : c.regenerateOne env disk source = (disk', c', result)) {names : SourceNames}
    {bytes : ByteArray} (hsource : IsSource names) (houtside : c.Outside names)
    (hread : disk.tree.read (c.sourcePath names) = .ok bytes) :
    disk'.tree.read (c.sourcePath names) = .ok bytes := by
  have hremade := regenerate_one_remade env c disk source
  rw [h] at hremade
  cases hremade with
  | underived => exact hread
  | @published s _ made hs hpublish =>
    have hnames := source_names_ok (derive_ok.mp hs).1
    obtain ⟨⟨_, _, hmade⟩, -⟩ := publish_wrote hnames hpublish
    refine read_keeps hmade.wrote.keeps ?_ hread
    rw [target_source hsource]
    refine hmade.wrote.others _ ?_
    simp only [List.forall_mem_cons, List.not_mem_nil, false_imp_iff, implies_true, and_true,
      target_artifact_attempt hnames, target_record_attempt hnames]
    exact ⟨houtside.ne_artifact _, houtside.ne_artifact _, houtside.ne_record⟩

theorem regenerate_cons {rest : List String} {results : Outcomes}
    (h : c.regenerate env disk (source :: rest) = (disk', c', results)) :
    ∃ disk₁ c₁ result others, c.regenerateOne env disk source = (disk₁, c₁, result) ∧
      c₁.regenerate env disk₁ rest = (disk', c', others) ∧ results = (source, result) :: others := by
  obtain ⟨rfl, hc⟩ := Prod.mk.inj h
  obtain ⟨rfl, rfl⟩ := Prod.mk.inj hc
  exact ⟨_, _, _, _, rfl, rfl, rfl⟩

theorem regenerate_sources {sources : List String} {results : Outcomes}
    (h : c.regenerate env disk sources = (disk', c', results))
    (houtside : ∀ source ∈ sources, ∀ names, c.sourceNames source = .ok names → c.Outside names)
    {names : SourceNames} {bytes : ByteArray} (hsource : IsSource names) (hout : c.Outside names)
    (hread : disk.tree.read (c.sourcePath names) = .ok bytes) :
    disk'.tree.read (c.sourcePath names) = .ok bytes := by
  induction sources generalizing c disk results with
  | nil =>
    obtain ⟨rfl, -⟩ := Prod.mk.inj h
    exact hread
  | cons source rest ih =>
    obtain ⟨disk₁, c₁, result, others, hfirst, hrest, rfl⟩ := regenerate_cons h
    obtain ⟨news, hturn⟩ := regenerate_one_turn (houtside source (by simp)) hfirst
    have hlike := hturn.alike
    have := ih hrest (fun s hs names hnames => ?_) (hlike.outside hout) ?_
    · rwa [hlike.source_path] at this
    · rw [hlike.source_names] at hnames
      exact hlike.outside (houtside s (List.mem_cons_of_mem _ hs) names hnames)
    · rw [hlike.source_path]
      exact regenerate_one_sources hfirst hsource hout hread

/-- Turns one after another, with what they settled. -/
inductive Turns (env : Environment) :
    Cache → Disk → History → Outcomes → Cache → Disk → History → Prop
  | nil (c : Cache) (disk : Disk) (history : History) : Turns env c disk history [] c disk history
  | cons {c c₁ c' : Cache} {disk disk₁ disk' : Disk} {history history' news : History}
      {source : String} {result : Except Failure Report} {outcomes : Outcomes}
      (h : Turn env c disk source disk₁ c₁ result news)
      (hrest : Turns env c₁ disk₁ (news ++ history) outcomes c' disk' history') :
    Turns env c disk history ((source, result) :: outcomes) c' disk' history'

theorem Turns.alike {history history' : History} {outcomes : Outcomes}
    (h : Turns env c disk history outcomes c' disk' history') : c.Alike c' := by
  induction h with
  | nil => exact .refl _
  | cons h _ ih => exact h.alike.trans ih

theorem apply_turns {d : Document} {result : Except Failure Report} (history : History)
    (houtside : ∀ names, c.sourceNames source = .ok names → c.Outside names)
    (h : c.apply env disk d source = (disk', c', result)) :
    Turns env c disk history [(source, result)] c' disk'
      ([(source, result)].foldl (c.note disk') history) := by
  obtain ⟨news, hturn⟩ := apply_turn houtside h
  rw [List.foldl_cons, List.foldl_nil, note_turn history hturn fun _ _ _ _ hread => hread]
  exact .cons hturn (.nil _ _ _)

theorem regenerate_turns {sources : List String} {results : Outcomes} (history : History)
    (houtside : ∀ source ∈ sources, ∀ names, c.sourceNames source = .ok names → c.Outside names)
    (h : c.regenerate env disk sources = (disk', c', results)) :
    Turns env c disk history results c' disk' (results.foldl (c.note disk') history) := by
  induction sources generalizing c disk results history with
  | nil =>
    obtain ⟨rfl, hc⟩ := Prod.mk.inj h
    obtain ⟨rfl, rfl⟩ := Prod.mk.inj hc
    exact .nil _ _ _
  | cons source rest ih =>
    obtain ⟨disk₁, c₁, result, others, hfirst, hrest, rfl⟩ := regenerate_cons h
    obtain ⟨news, hturn⟩ := regenerate_one_turn (houtside source (by simp)) hfirst
    have hlike := hturn.alike
    have hout : ∀ s ∈ rest, ∀ names, c₁.sourceNames s = .ok names → c₁.Outside names := by
      intro s hs names hnames
      rw [hlike.source_names] at hnames
      exact hlike.outside (houtside s (List.mem_cons_of_mem _ hs) names hnames)
    have hnote := note_turn history hturn fun names bytes hsource houtside hread => by
      rw [← hlike.source_path] at hread ⊢
      exact regenerate_sources hrest hout hsource (hlike.outside houtside) hread
    rw [List.foldl_cons, hnote]
    refine .cons hturn ?_
    have := ih (news ++ history) hout hrest
    rwa [hlike.note] at this

theorem record_file_renamed (names : SourceNames) :
    Manifest.IsRecordFile (renamed recordName names) := by
  rw [Manifest.IsRecordFile, renamed, List.getLast?_concat, Option.any_some, recordName,
    String.toList_append, List.isSuffixOf_iff_suffix]
  exact List.suffix_append _ _

/-- Someone else changed files. Every directory stays, and so does every file in the directory of records
that is named like a record. -/
structure Edited (home : Place) (t t' : FileTree) : Prop where
  keeps : t.Keeps t'
  contents : ∀ names, Manifest.IsRecordFile names →
    t'.contentAt? (home ++ names) = t.contentAt? (home ++ names)
  listed : ∀ names, Manifest.IsRecordFile names → names ∈ t'.filesBelow home →
    names ∈ t.filesBelow home

/-- A file that is removed outside the directory of records is such a change. -/
theorem edited_erase {home p : Place} {t : FileTree} (hdir : t.isDirectory p = false)
    (houtside : ¬home <+: p) : Edited home t (t.erase p) := by
  have hne (names : List String) : home ++ names ≠ p := fun heq => houtside ⟨names, heq⟩
  refine ⟨fun q hq => ?_, fun names _ => ?_, fun names _ h => ?_⟩
  · have hq' : q ≠ p := by
      rintro rfl
      rw [hdir] at hq
      cases hq
    rw [directory_iff, find_erase hq']
    exact directory_iff.mp hq
  · rw [contentAt?, find_erase (hne names), contentAt?]
  · obtain ⟨hnil, content, hmem⟩ := mem_files_below.mp h
    exact mem_files_below.mpr ⟨hnil, content, (List.mem_filter.mp hmem).1⟩

/-- The files, the caches of all users, and what sources were settled with. -/
structure World where
  disk : Disk
  users : List Cache := []
  history : History := []

/-- A world in which nobody has done anything yet and in which there are no records. -/
structure World.IsNew (root : String) (o : Options) (w : World) : Prop where
  users : w.users = []
  history : w.history = []
  records : ∀ names, Manifest.IsRecordFile names →
    names ∉ w.disk.tree.filesBelow (target (manifestPath root o))

/-- One step of someone, with the outcomes of the operations on sources that were made in it. -/
inductive Step (env : Environment) (root : String) (o : Options) : World → Outcomes → World → Prop
  | opened (w : World) : Step env root o w [] { w with users := openAt w.disk root o :: w.users }
  | applied {w : World} {before after : List Cache} {c c' : Cache} {disk' : Disk} {d : Document}
      {source : String} {result : Except Failure Report} (husers : w.users = before ++ c :: after)
      (houtside : ∀ names, c.sourceNames source = .ok names → c.Outside names)
      (h : c.apply env w.disk d source = (disk', c', result)) :
    Step env root o w [(source, result)] ⟨disk', before ++ c' :: after,
      [(source, result)].foldl (c.note disk') w.history⟩
  | regenerated {w : World} {before after : List Cache} {c c' : Cache} {disk' : Disk}
      {sources : List String} {results : Outcomes} (husers : w.users = before ++ c :: after)
      (houtside : ∀ source ∈ sources, ∀ names, c.sourceNames source = .ok names → c.Outside names)
      (h : c.regenerate env w.disk sources = (disk', c', results)) :
    Step env root o w results ⟨disk', before ++ c' :: after,
      results.foldl (c.note disk') w.history⟩
  | saved {w : World} {before after : List Cache} {c c' : Cache} {disk' : Disk}
      {result : Except Failure Unit} (husers : w.users = before ++ c :: after)
      (h : c.save env w.disk = (disk', c', result)) :
    Step env root o w [] ⟨disk', before ++ c' :: after, w.history⟩
  | edited {w : World} {t : FileTree} (h : Edited (target (manifestPath root o)) w.disk.tree t) :
    Step env root o w [] { w with disk := { w.disk with tree := t } }

/-- Where one cache took the place of another, all others are as they were. -/
theorem replaced_all {P : Cache → Prop} {before after : List Cache} {c c' : Cache} (h : P c')
    (hall : ∀ u ∈ before ++ c :: after, P u) : ∀ u ∈ before ++ c' :: after, P u := by
  intro u hu
  rcases List.mem_append.mp hu with hu | hu
  · exact hall u (List.mem_append_left _ hu)
  · rcases List.mem_cons.mp hu with rfl | hu
    · exact h
    · exact hall u (List.mem_append_right _ (List.mem_cons_of_mem _ hu))

/-- What one step can do: a user turns to sources, one after another, or nothing is settled. -/
inductive Change (env : Environment) (root : String) (o : Options) : World → Outcomes → World → Prop
  | opened (w : World) : Change env root o w [] { w with users := openAt w.disk root o :: w.users }
  | turned {w : World} {before after : List Cache} {c c' : Cache} {disk' : Disk}
      {outcomes : Outcomes} {history' : History} (husers : w.users = before ++ c :: after)
      (h : Turns env c w.disk w.history outcomes c' disk' history') :
    Change env root o w outcomes ⟨disk', before ++ c' :: after, history'⟩
  | saved {w : World} {before after : List Cache} {c c' : Cache} {disk' : Disk}
      {result : Except Failure Unit} (husers : w.users = before ++ c :: after)
      (h : c.save env w.disk = (disk', c', result)) :
    Change env root o w [] ⟨disk', before ++ c' :: after, w.history⟩
  | edited {w : World} {t : FileTree} (h : Edited (target (manifestPath root o)) w.disk.tree t) :
    Change env root o w [] { w with disk := { w.disk with tree := t } }

theorem change_of_step {root : String} {o : Options} {w w' : World} {outcomes : Outcomes}
    (h : Step env root o w outcomes w') : Change env root o w outcomes w' := by
  cases h with
  | opened => exact .opened w
  | applied husers houtside h => exact .turned husers (apply_turns _ houtside h)
  | regenerated husers houtside h => exact .turned husers (regenerate_turns _ houtside h)
  | saved husers h => exact .saved husers h
  | edited h => exact .edited h

/-- The worlds that steps lead to from a new one, if all steps are taken under a condition. -/
inductive Reachable (env : Environment) (root : String) (o : Options)
    (condition : World → Outcomes → World → Prop) : World → Prop
  | start {w : World} (h : w.IsNew root o) : Reachable env root o condition w
  | step {w w' : World} {outcomes : Outcomes} (h : Reachable env root o condition w)
      (hstep : Step env root o w outcomes w') (hcondition : condition w outcomes w') :
    Reachable env root o condition w'

section Example

/-- No attempt to write fails, and the clock counts seconds. -/
def steady : Environment := ⟨fun _ => false, fun i => ⟨i, 0⟩⟩

def newUser : Cache := openAt ⟨{}, 0, 0⟩ "/" {}

def firstWrite : Disk × Cache × Except Failure Report :=
  newUser.apply steady ⟨{}, 0, 0⟩ shelf "a.dx"

/-- Two users came to a root without files. -/
def twoUsers : World := ⟨⟨{}, 0, 0⟩, [newUser, newUser], []⟩

/-- One of them wrote a document. -/
def writtenOnce : World where
  disk := firstWrite.1
  users := [firstWrite.2.1, newUser]
  history := [("a.dx", firstWrite.2.2)].foldl (newUser.note firstWrite.1) []

theorem new_user_names : newUser.sourceNames "a.dx" = .ok ["a.dx"] := rfl

theorem manifest_is_step : IsStep newUser.options.manifestDir :=
  ⟨by decide, by decide, by decide, by decide⟩

theorem outside_new_user {names : SourceNames} (h : newUser.sourceNames "a.dx" = .ok names) :
    newUser.Outside names := by
  cases new_user_names.symm.trans h
  exact outside_of_home manifest_is_step (by decide +kernel)

theorem two_users_reachable {condition : World → Outcomes → World → Prop}
    (h : ∀ w w', w'.disk = w.disk → condition w [] w') :
    Reachable env "/" {} condition twoUsers := by
  have hnew : World.IsNew "/" {} ⟨⟨{}, 0, 0⟩, [], []⟩ := ⟨rfl, rfl, by simp [filesBelow, below]⟩
  exact .step (.step (.start hnew) (.opened _) (h _ _ rfl)) (.opened _) (h _ _ rfl)

theorem first_write_eq : newUser.apply steady twoUsers.disk shelf "a.dx" = firstWrite := by
  unfold firstWrite
  rfl

attribute [local irreducible] firstWrite in
theorem written_once_step : Step steady "/" {} twoUsers [("a.dx", firstWrite.2.2)] writtenOnce := by
  have husers : twoUsers.users = [] ++ newUser :: [newUser] := rfl
  exact .applied husers (fun _ => outside_new_user) (first_write_eq.trans rfl)

end Example

end DocForms.Cache
