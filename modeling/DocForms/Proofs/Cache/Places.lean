import DocForms.Cache.Basic
import DocForms.Proofs.Files.Components

namespace DocForms.Cache
open DocForms.Path FileTree

/-- The names of a source lead one step down each. -/
structure IsSource (names : SourceNames) : Prop where
  ne_nil : names ≠ []
  steps : ∀ name ∈ names, IsStep name

theorem mem_names_of {cs : List Component} {names : SourceNames} (h : namesOf? cs = some names)
    {name : String} (hm : name ∈ names) : Component.normal name ∈ cs := by
  induction cs generalizing names with
  | nil =>
    cases h
    cases hm
  | cons c cs ih =>
    cases c with
    | root => cases h
    | parent => cases h
    | current => exact List.mem_cons_of_mem _ (ih h hm)
    | normal first =>
      obtain ⟨rest, hrest, rfl⟩ := Option.map_eq_some_iff.mp h
      rcases List.mem_cons.mp hm with rfl | hm
      · exact List.mem_cons_self ..
      · exact List.mem_cons_of_mem _ (ih hrest hm)

theorem source_names_ok {c : Cache} {source : String} {names : SourceNames}
    (h : c.sourceNames source = .ok names) : IsSource names := by
  rw [sourceNames] at h
  split at h
  · rename_i name rest hbind
    cases h
    refine ⟨by simp, fun n hn => ?_⟩
    obtain ⟨cs, hcs, hnames⟩ := Option.bind_eq_some_iff.mp hbind
    have hmem := mem_names_of hnames hn
    rw [relativeComponents?] at hcs
    split at hcs
    · rw [stripBase?] at hcs
      split at hcs
      · cases hcs
        exact step_of_mem_components (List.mem_of_mem_drop hmem)
      · cases hcs
    · cases hcs
      exact step_of_mem_components hmem
  · cases h

theorem source_names_error {c : Cache} {source : String} {f : Failure}
    (h : c.sourceNames source = .error f) : f = .outsideRoot source := by
  rw [sourceNames] at h
  split at h
  · cases h
  · cases h
    rfl

/-- The names of a source with the last one changed. -/
def renamed (f : String → String) (names : SourceNames) : List String :=
  names.dropLast ++ [f (names.getLast?.getD "")]

theorem renamed_inj {f g : String → String} {s t : SourceNames} :
    renamed f s = renamed g t ↔
      s.dropLast = t.dropLast ∧ f (s.getLast?.getD "") = g (t.getLast?.getD "") := by
  constructor
  · intro h
    obtain ⟨habove, hlast⟩ := List.append_inj' h rfl
    exact ⟨habove, List.singleton_inj.mp hlast⟩
  · rintro ⟨habove, hlast⟩
    rw [renamed, renamed, habove, hlast]

/-- A source is the names above it and its own. -/
theorem IsSource.split {names : SourceNames} (h : IsSource names) :
    names = names.dropLast ++ [names.getLast?.getD ""] ∧
      (∀ name ∈ names.dropLast, IsStep name) ∧ IsStep (names.getLast?.getD "") := by
  have hlast := List.getLast?_eq_some_getLast h.ne_nil
  rw [hlast, Option.getD_some]
  exact ⟨(List.dropLast_concat_getLast h.ne_nil).symm,
    fun name hn => h.steps name (List.dropLast_subset _ hn), h.steps _ (List.getLast_mem h.ne_nil)⟩

theorem IsSource.renamed {names : SourceNames} (h : IsSource names) {f : String → String}
    (hf : ∀ name, IsStep name → IsStep (f name)) : ∀ name ∈ renamed f names, IsStep name := by
  intro name hn
  obtain ⟨-, habove, hlast⟩ := h.split
  rcases List.mem_append.mp hn with hn | hn
  · exact habove name hn
  · rw [List.mem_singleton.mp hn]
    exact hf _ hlast

def artifactName (format : ArtifactFormat) (name : String) : String :=
  stem name ++ "." ++ format.extension

def recordName (name : String) : String :=
  name ++ Manifest.recordExtension

theorem artifact_name_step (format : ArtifactFormat) {name : String} (h : IsStep name) :
    IsStep (artifactName format name) := by
  have hstem : '/' ∉ (stem name).toList := fun hm => h.no_slash (mem_stem hm)
  rw [artifactName, String.append_assoc]
  cases format with
  | compact => exact .extend (c := 'm') hstem (by decide) (by decide) (by decide)
  | buffer => exact .extend (c := 'e') hstem (by decide) (by decide) (by decide)

theorem record_name_step {name : String} (h : '/' ∉ name.toList) : IsStep (recordName name) :=
  .extend (c := 'n') h (by decide) (by decide) (by decide)

theorem last_of_artifact_name (format : ArtifactFormat) (name : String) :
    (artifactName format name).toList.getLast? =
      some (match format with | .compact => 'm' | .buffer => 'e') := by
  cases format <;> simp [artifactName, ArtifactFormat.extension]

theorem last_of_record_name (name : String) : (recordName name).toList.getLast? = some 'n' := by
  simp [recordName, Manifest.recordExtension]

theorem artifact_name_ne_record_name {format : ArtifactFormat} {a b : String} :
    artifactName format a ≠ recordName b := by
  intro h
  have hlast := last_of_artifact_name format a
  rw [h, last_of_record_name] at hlast
  cases format <;> cases hlast

theorem artifact_name_inj {format format' : ArtifactFormat} {a b : String} :
    artifactName format a = artifactName format' b ↔ format = format' ∧ stem a = stem b := by
  constructor
  · intro h
    have hformat : format = format' := by
      have hlast := last_of_artifact_name format a
      rw [h, last_of_artifact_name] at hlast
      cases format <;> cases format' <;> first | rfl | cases hlast
    subst hformat
    refine ⟨rfl, ?_⟩
    rw [artifactName, artifactName, String.append_assoc, String.append_assoc] at h
    exact (String.append_left_inj _).mp h
  · rintro ⟨rfl, hstem⟩
    rw [artifactName, hstem, artifactName]

theorem record_name_inj {a b : String} : recordName a = recordName b ↔ a = b :=
  String.append_left_inj _

variable {c : Cache}

/-- The directory that the artifacts are kept below. -/
def home (c : Cache) : Place :=
  target (join c.root c.options.cacheDir)

/-- The directory that the records are kept below. -/
def recordHome (c : Cache) : Place :=
  target c.manifestDir

def sourcePlace (c : Cache) (names : SourceNames) : Place :=
  target c.root ++ names

/-- The path of an artifact under the root. -/
def artifactFile (c : Cache) (names : SourceNames) (format : ArtifactFormat) : String :=
  join c.root (artifactPath c.options names format)

def artifactPlace (c : Cache) (names : SourceNames) (format : ArtifactFormat) : Place :=
  c.home ++ renamed (artifactName format) names

/-- Where the record of a source stands in a directory of records. -/
def recordPlaceIn (dir : String) (names : SourceNames) : Place :=
  target dir ++ renamed recordName names

def recordPlace (c : Cache) (names : SourceNames) : Place :=
  recordPlaceIn c.manifestDir names

theorem target_source {names : SourceNames} (h : IsSource names) :
    target (c.sourcePath names) = c.sourcePlace names :=
  follow_join_names h.steps [] c.root

theorem source_ends {names : SourceNames} (h : IsSource names) :
    EndsInStep (c.sourcePath names) :=
  (ends_of_names h.ne_nil h.steps).join c.root

theorem artifact_follow {names : SourceNames} (h : IsSource names) (o : Options)
    (format : ArtifactFormat) (p : Place) :
    follow p (pieces (artifactPath o names format)) =
      follow p (pieces o.cacheDir) ++ renamed (artifactName format) names := by
  obtain ⟨-, habove, hlast⟩ := h.split
  have hpath : artifactPath o names format =
      join (join o.cacheDir (ofNames names.dropLast))
        (artifactName format (names.getLast?.getD "")) := rfl
  rw [hpath, follow_join_name (artifact_name_step format hlast), follow_join_names habove,
    List.append_assoc, renamed]

theorem artifact_absolute {names : SourceNames} (h : IsSource names) (o : Options)
    (format : ArtifactFormat) :
    isAbsolute (artifactPath o names format) = isAbsolute o.cacheDir := by
  obtain ⟨-, habove, hlast⟩ := h.split
  have hname : isAbsolute (artifactName format (names.getLast?.getD "")) = false :=
    step_relative (artifact_name_step format hlast)
  have hpath : artifactPath o names format =
      join (join o.cacheDir (ofNames names.dropLast))
        (artifactName format (names.getLast?.getD "")) := rfl
  rw [hpath, absolute_join, absolute_join, hname, names_relative habove, Bool.or_false,
    Bool.or_false]

theorem target_artifact {names : SourceNames} (h : IsSource names) (format : ArtifactFormat) :
    target (c.artifactFile names format) = c.artifactPlace names format := by
  have habsolute := artifact_absolute h c.options format
  rw [artifactFile, artifactPlace, home]
  cases hcache : isAbsolute c.options.cacheDir with
  | true =>
    rw [hcache] at habsolute
    rw [join_absolute habsolute, join_absolute hcache, target, artifact_follow h, target]
  | false =>
    rw [hcache] at habsolute
    rw [target_join habsolute, target_join hcache, artifact_follow h]

theorem artifact_ends {names : SourceNames} (h : IsSource names) (format : ArtifactFormat) :
    EndsInStep (c.artifactFile names format) := by
  obtain ⟨-, -, hlast⟩ := h.split
  exact ((ends_in_step (artifact_name_step format hlast)).join _).join _

/-- The path of an artifact goes through the directory of the artifacts. -/
theorem artifact_file_join {names : SourceNames} (h : IsSource names) (format : ArtifactFormat) :
    c.artifactFile names format =
      join (join (join c.root c.options.cacheDir) (ofNames names.dropLast))
        (artifactName format (names.getLast?.getD "")) := by
  obtain ⟨-, habove, hlast⟩ := h.split
  rw [← join_assoc (names_relative habove),
    ← join_assoc (step_relative (artifact_name_step format hlast))]
  rfl

/-- The path of a record is the directory of records, continued by names. -/
theorem push_key_join {above : List String} {last : String} (habove : ∀ name ∈ above, IsStep name)
    (hlast : '/' ∉ last.toList) (dir : String) :
    Manifest.pushKey dir (above ++ [last]) = join dir (ofNames (above ++ [recordName last])) := by
  induction above generalizing dir with
  | nil => simp [Manifest.pushKey, ofNames, recordName]
  | cons name rest ih =>
    have hpush : Manifest.pushKey dir (name :: rest ++ [last]) =
        Manifest.pushKey (join dir name) (rest ++ [last]) := by
      cases rest <;> rfl
    obtain ⟨hname, hrest⟩ := List.forall_mem_cons.mp habove
    have hsteps : ∀ n ∈ rest ++ [recordName last], IsStep n :=
      List.forall_mem_append.mpr ⟨hrest, List.forall_mem_singleton.mpr (record_name_step hlast)⟩
    rw [hpush, ih hrest, ← join_assoc (names_relative hsteps), join_name hname (by simp) hsteps,
      List.cons_append]

theorem IsSource.record_steps {names : SourceNames} (h : IsSource names) :
    ∀ name ∈ Cache.renamed recordName names, IsStep name :=
  h.renamed fun _ hname => record_name_step hname.no_slash

theorem record_path_join {names : SourceNames} (h : IsSource names) (dir : String) :
    Manifest.recordPath dir (keyOf names) = join dir (ofNames (renamed recordName names)) := by
  obtain ⟨hsplit, habove, hlast⟩ := h.split
  rw [Manifest.recordPath, keyOf, pieces_of_names h.ne_nil h.steps, hsplit,
    push_key_join habove hlast.no_slash, renamed, List.dropLast_concat, List.getLast?_concat,
    Option.getD_some]

theorem record_components {names : SourceNames} (h : IsSource names) (dir : String) :
    components (Manifest.recordPath dir (keyOf names)) =
      components dir ++ (renamed recordName names).map .normal := by
  rw [record_path_join h, components_join_names h.record_steps]

theorem target_record_in {names : SourceNames} (h : IsSource names) (dir : String) :
    target (Manifest.recordPath dir (keyOf names)) = recordPlaceIn dir names := by
  rw [record_path_join h]
  exact follow_join_names h.record_steps [] dir

theorem record_ends_in {names : SourceNames} (h : IsSource names) (dir : String) :
    EndsInStep (Manifest.recordPath dir (keyOf names)) := by
  rw [record_path_join h]
  exact (ends_of_names (by simp [renamed]) h.record_steps).join dir

theorem target_record {names : SourceNames} (h : IsSource names) :
    target (c.recordPath (keyOf names)) = c.recordPlace names :=
  target_record_in h c.manifestDir

theorem record_ends {names : SourceNames} (h : IsSource names) :
    EndsInStep (c.recordPath (keyOf names)) :=
  record_ends_in h c.manifestDir

theorem key_inj {s t : SourceNames} (hs : IsSource s) (ht : IsSource t)
    (h : keyOf s = keyOf t) : s = t :=
  of_names_inj hs.ne_nil ht.ne_nil hs.steps ht.steps h

theorem artifact_place_ne_record_place {s t : SourceNames} {format : ArtifactFormat} :
    c.artifactPlace s format ≠ c.recordPlace t := by
  intro h
  have hlast := congrArg List.getLast? h
  simp only [artifactPlace, recordPlace, recordPlaceIn, renamed, ← List.append_assoc, List.getLast?_concat,
    Option.some.injEq] at hlast
  exact artifact_name_ne_record_name hlast

theorem artifact_place_inj {s t : SourceNames} {format format' : ArtifactFormat} :
    c.artifactPlace s format = c.artifactPlace t format' ↔
      format = format' ∧ s.dropLast = t.dropLast ∧
        stem (s.getLast?.getD "") = stem (t.getLast?.getD "") := by
  rw [artifactPlace, artifactPlace, List.append_right_inj, renamed_inj, artifact_name_inj]
  exact and_left_comm

theorem artifact_places_differ {s : SourceNames} :
    c.artifactPlace s .compact ≠ c.artifactPlace s .buffer := by
  rw [Ne, artifact_place_inj]
  simp

theorem record_file_inj {s t : SourceNames} (hs : IsSource s) (ht : IsSource t) :
    renamed recordName s = renamed recordName t ↔ s = t := by
  rw [renamed_inj, record_name_inj]
  refine ⟨fun ⟨habove, hlast⟩ => ?_, fun h => by rw [h]; exact ⟨rfl, rfl⟩⟩
  rw [hs.split.1, ht.split.1, habove, hlast]

theorem record_place_inj {s t : SourceNames} (hs : IsSource s) (ht : IsSource t) :
    c.recordPlace s = c.recordPlace t ↔ s = t := by
  rw [recordPlace, recordPlace, recordPlaceIn, recordPlaceIn, List.append_right_inj,
    record_file_inj hs ht]

/-- The places of the files that are made of a source. -/
def madePlaces (c : Cache) (names : SourceNames) : List Place :=
  [c.artifactPlace names .compact, c.artifactPlace names .buffer, c.recordPlace names]

theorem mem_made_places {names : SourceNames} {q : Place} : q ∈ c.madePlaces names ↔
    (∃ format, q = c.artifactPlace names format) ∨ q = c.recordPlace names := by
  simp only [madePlaces, List.mem_cons, List.not_mem_nil, or_false]
  constructor
  · rintro (h | h | h)
    · exact .inl ⟨_, h⟩
    · exact .inl ⟨_, h⟩
    · exact .inr h
  · rintro (⟨_ | _, h⟩ | h)
    · exact .inl h
    · exact .inr (.inl h)
    · exact .inr (.inr h)

/-- A source that is neither among the artifacts nor among the records. -/
structure Outside (c : Cache) (names : SourceNames) : Prop where
  artifacts : ¬c.home <+: c.sourcePlace names
  records : ¬c.recordHome <+: c.sourcePlace names

/-- Where the records are kept in a directory among the artifacts, it is enough to be outside that of
the artifacts. -/
theorem outside_of_home {names : SourceNames} (hdir : IsStep c.options.manifestDir)
    (h : ¬c.home <+: c.sourcePlace names) : c.Outside names := by
  refine ⟨h, fun hrecords => h ?_⟩
  rw [recordHome, manifestDir, manifestPath, target, follow_join_name hdir, ← target] at hrecords
  exact (List.prefix_append _ _).trans hrecords

theorem Outside.ne_artifact {s t : SourceNames} (h : c.Outside s) (format : ArtifactFormat) :
    c.sourcePlace s ≠ c.artifactPlace t format :=
  fun he => h.artifacts (he ▸ List.prefix_append _ _)

theorem Outside.ne_record {s t : SourceNames} (h : c.Outside s) :
    c.sourcePlace s ≠ c.recordPlace t :=
  fun he => h.records (he ▸ List.prefix_append _ _)

end DocForms.Cache
