import DocForms.Proofs.Cache.Runs

namespace DocForms.Cache
open DocForms.Path FileTree

attribute [local irreducible] Path.join

variable {env : Environment} {c c' : Cache} {disk disk' : Disk} {s t names : SourceNames}
  {q : Place} {source : String}

/-- The places of all files that can be written for a source. -/
def placesOf (c : Cache) (names : SourceNames) : List Place :=
  [c.sourcePlace names, c.artifactPlace names .compact, c.artifactPlace names .buffer,
    c.recordPlace names]

theorem mem_places : q ∈ c.placesOf names ↔ q = c.sourcePlace names ∨
    (∃ format, q = c.artifactPlace names format) ∨ q = c.recordPlace names := by
  have hplaces : c.placesOf names = c.sourcePlace names :: c.madePlaces names := rfl
  rw [hplaces, List.mem_cons, mem_made_places]

/-- Two sources in one directory whose names differ at most in what follows the last point. -/
structure Siblings (s t : SourceNames) : Prop where
  directory : s.dropLast = t.dropLast
  stem : stem (s.getLast?.getD "") = stem (t.getLast?.getD "")

/-- What two sources share is an artifact of siblings. -/
theorem shared_place (hs : IsSource s) (ht : IsSource t) (houts : c.Outside s) (houtt : c.Outside t)
    (hne : t ≠ s) (hq : q ∈ c.placesOf s) (hq' : q ∈ c.placesOf t) :
    Siblings s t ∧ ∃ format, q = c.artifactPlace s format := by
  rcases mem_places.mp hq with rfl | ⟨format, rfl⟩ | rfl
  · rcases mem_places.mp hq' with h | ⟨_, h⟩ | h
    · exact absurd (List.append_cancel_left h).symm hne
    · exact absurd h (houts.ne_artifact _)
    · exact absurd h houts.ne_record
  · rcases mem_places.mp hq' with h | ⟨_, h⟩ | h
    · exact absurd h.symm (houtt.ne_artifact _)
    · obtain ⟨-, hdirectory, hstem⟩ := artifact_place_inj.mp h
      exact ⟨⟨hdirectory, hstem⟩, format, rfl⟩
    · exact absurd h artifact_place_ne_record_place
  · rcases mem_places.mp hq' with h | ⟨_, h⟩ | h
    · exact absurd h.symm houtt.ne_record
    · exact absurd h.symm artifact_place_ne_record_place
    · exact absurd ((record_place_inj hs ht).mp h).symm hne

/-- Siblings share their artifacts. -/
theorem Siblings.shared (h : Siblings s t) : ∃ q ∈ c.placesOf s, q ∈ c.placesOf t :=
  ⟨c.artifactPlace s .compact, mem_places.mpr (.inr (.inl ⟨_, rfl⟩)),
    mem_places.mpr (.inr (.inl ⟨_, artifact_place_inj.mpr ⟨rfl, h.directory, h.stem⟩⟩))⟩

theorem Alike.places (h : c.Alike c') : c'.placesOf = c.placesOf := by
  funext names
  simp only [placesOf, sourcePlace, artifactPlace, recordPlace, home, h.root, h.options,
    h.manifest_dir]

/-- A turn changes no file but those of its source. -/
theorem turn_frame {result : Except Failure Report} {news : History}
    (h : Turn env c disk source disk' c' result news)
    (hq : ∀ names, c.sourceNames source = .ok names → q ∉ c.placesOf names) :
    disk'.tree.contentAt? q = disk.tree.contentAt? q := by
  cases h with
  | kept _ _ _ hcontents => exact hcontents q
  | settled hnames _ h =>
    have hnot := hq _ hnames
    rw [mem_places, not_or, not_or, not_exists] at hnot
    exact h.others q hnot.1 hnot.2.1 hnot.2.2

theorem turns_frame {outcomes : Outcomes} {history history' : History}
    (h : Turns env c disk history outcomes c' disk' history')
    (hq : ∀ e ∈ outcomes, ∀ names, c.sourceNames e.1 = .ok names → q ∉ c.placesOf names) :
    disk'.tree.contentAt? q = disk.tree.contentAt? q := by
  induction h with
  | nil => rfl
  | cons h _ ih =>
    obtain ⟨hfirst, hrest⟩ := List.forall_mem_cons.mp hq
    have hlike := h.alike
    rw [hlike.source_names, hlike.places] at ih
    rw [ih hrest]
    exact turn_frame h hfirst

/-- A document is written to a source, or the files of sources are made again. -/
def Works (env : Environment) (c : Cache) (disk : Disk) (sources : List String) (disk' : Disk)
    (c' : Cache) : Prop :=
  (∃ d source result, sources = [source] ∧ c.apply env disk d source = (disk', c', result)) ∨
    ∃ results, c.regenerate env disk sources = (disk', c', results)

theorem regenerate_results {sources : List String} {results : Outcomes}
    (h : c.regenerate env disk sources = (disk', c', results)) : results.map Prod.fst = sources := by
  induction sources generalizing c disk results with
  | nil =>
    obtain ⟨-, hc⟩ := Prod.mk.inj h
    obtain ⟨-, rfl⟩ := Prod.mk.inj hc
    rfl
  | cons source rest ih =>
    obtain ⟨_, _, _, others, -, hrest, rfl⟩ := regenerate_cons h
    rw [List.map_cons, ih hrest]

theorem works_turns {sources : List String} (h : Works env c disk sources disk' c')
    (houtside : ∀ source ∈ sources, ∀ names, c.sourceNames source = .ok names → c.Outside names) :
    ∃ outcomes history', Turns env c disk [] outcomes c' disk' history' ∧
      outcomes.map Prod.fst = sources := by
  rcases h with ⟨d, source, result, rfl, h⟩ | ⟨results, h⟩
  · exact ⟨_, _, apply_turns [] (houtside source (List.mem_singleton_self _)) h, rfl⟩
  · exact ⟨_, _, regenerate_turns [] houtside h, regenerate_results h⟩

/-- Sources share files if and only if they are siblings, and then only artifacts; an operation on other
sources leaves all files of a source but the artifacts that it shares with siblings among them. -/
theorem shared_by_siblings (hs : IsSource s) (houts : c.Outside s) :
    (∀ t, IsSource t → c.Outside t → t ≠ s →
      ((∃ q ∈ c.placesOf s, q ∈ c.placesOf t) ↔ Siblings s t)) ∧
    ∀ env disk disk' c' sources, Works env c disk sources disk' c' →
      (∀ source ∈ sources, ∀ t, c.sourceNames source = .ok t → c.Outside t ∧ t ≠ s) →
      ∀ q ∈ c.placesOf s,
        ((∃ format, q = c.artifactPlace s format) →
          ∀ source ∈ sources, ∀ t, c.sourceNames source = .ok t → ¬Siblings s t) →
        disk'.tree.contentAt? q = disk.tree.contentAt? q := by
  constructor
  · intro t ht houtt hne
    constructor
    · rintro ⟨q, hq, hq'⟩
      exact (shared_place hs ht houts houtt hne hq hq').1
    · exact Siblings.shared
  · intro env disk disk' c' sources hworks hothers q hq hunshared
    obtain ⟨outcomes, _, hturns, rfl⟩ :=
      works_turns hworks fun source hsource t ht => (hothers source hsource t ht).1
    refine turns_frame hturns fun e he t hnames hq' => ?_
    have he' := List.mem_map_of_mem (f := Prod.fst) he
    obtain ⟨houtt, hne⟩ := hothers _ he' t hnames
    obtain ⟨hsiblings, hartifact⟩ :=
      shared_place hs (source_names_ok hnames) houts houtt hne hq hq'
    exact hunshared hartifact _ he' t hnames hsiblings

section Example

/-- One of two siblings is written, then the other. -/
def elderWrite : Disk × Cache × Except Failure Report :=
  newUser.apply steady ⟨{}, 0, 0⟩ shelf "app.dx"

def youngerWrite : Disk × Cache × Except Failure Report :=
  elderWrite.2.1.apply steady elderWrite.1 .empty "app.txt"

/-- Two different sources share an artifact, and writing one of them changes the artifact of the other. -/
theorem siblings_overwrite :
    newUser.sourceNames "app.dx" = .ok ["app.dx"] ∧ newUser.sourceNames "app.txt" = .ok ["app.txt"] ∧
    newUser.Outside ["app.dx"] ∧ newUser.Outside ["app.txt"] ∧
    ∃ q ∈ newUser.placesOf ["app.dx"], q ∈ newUser.placesOf ["app.txt"] ∧
      youngerWrite.1.tree.contentAt? q ≠ elderWrite.1.tree.contentAt? q := by
  have helder : newUser.Outside ["app.dx"] := outside_of_home manifest_is_step (by decide +kernel)
  have hyounger : newUser.Outside ["app.txt"] := outside_of_home manifest_is_step (by decide +kernel)
  exact ⟨rfl, rfl, helder, hyounger, [".dx", "cache", "app.llm"], by decide +kernel,
    by decide +kernel, by decide +kernel⟩

theorem works_apply (env : Environment) (c : Cache) (disk : Disk) (d : Document) (source : String) :
    Works env c disk [source] (c.apply env disk d source).1 (c.apply env disk d source).2.1 :=
  .inl ⟨d, source, (c.apply env disk d source).2.2, rfl, rfl⟩

/-- A source that is written beside another has files of its own and leaves all files of the other. -/
theorem shared_by_siblings_none :
    newUser.Outside ["a.dx"] ∧ newUser.Outside ["b.dx"] ∧
    (¬∃ q ∈ newUser.placesOf ["a.dx"], q ∈ newUser.placesOf ["b.dx"]) ∧
    ∀ q ∈ newUser.placesOf ["a.dx"],
      (newUser.apply steady firstWrite.1 shelf "b.dx").1.tree.contentAt? q =
        firstWrite.1.tree.contentAt? q := by
  have hfirst : newUser.Outside ["a.dx"] := outside_new_user new_user_names
  have hsecond : newUser.Outside ["b.dx"] := outside_of_home manifest_is_step (by decide +kernel)
  have hnames : newUser.sourceNames "b.dx" = .ok ["b.dx"] := rfl
  have hapart : ¬Siblings ["a.dx"] ["b.dx"] := fun h => absurd h.stem (by decide +kernel)
  obtain ⟨hshared, hframe⟩ := shared_by_siblings (source_names_ok new_user_names) hfirst
  refine ⟨hfirst, hsecond, ?_, fun q hq => ?_⟩
  · rwa [hshared _ (source_names_ok hnames) hsecond (by decide)]
  · refine hframe steady firstWrite.1 _ _ ["b.dx"] (works_apply ..) ?_ q hq fun _ => ?_
    · rw [List.forall_mem_singleton]
      intro t ht
      cases hnames.symm.trans ht
      exact ⟨hsecond, by decide⟩
    · rw [List.forall_mem_singleton]
      intro t ht
      cases hnames.symm.trans ht
      exact hapart

end Example

end DocForms.Cache
