import DocForms.Proofs.Cache.Sharing

namespace DocForms.Cache
open DocForms.Path FileTree

attribute [local irreducible] Path.join

/-- A path spells names under a root: they are the parts of a relative path, and those that follow the parts
of the root in an absolute one. -/
inductive Spells (root source : String) (names : List String) : Prop
  | relative (hsource : isAbsolute source = false) (hnames : parts source = names)
  | absolute (hroot : isAbsolute root = true) (hsource : isAbsolute source = true)
      (hnames : parts source = parts root ++ names)

/-- A path that leads up after the root, an absolute one that is not under the root, the root itself, and a
path without a name. -/
inductive Escapes (root source : String) : Prop
  | up {names : List String} (hspells : Spells root source names) (hup : ".." ∈ names)
  | aside (hsource : isAbsolute source = true)
      (haside : ¬(isAbsolute root = true ∧ parts root <+: parts source))
  | root (hspells : Spells root source [])
  | nameless (hnone : ∀ name, Component.normal name ∉ components source)

/-- A path of names alone. -/
def OfNames (path : String) : Prop :=
  ∃ names : List String, components path = names.map .normal

/-- A path that continues another one by names. -/
def Below (root path : String) : Prop :=
  ∃ names : List String, names ≠ [] ∧ components path = components root ++ names.map .normal

/-- The key of a source path, and the paths of its artifacts and its record. -/
def locate (c : Cache) (source : String) : Except Failure (String × List String × String) := do
  let names ← c.sourceNames source
  return (keyOf names, ArtifactFormat.all.map (c.artifactFile names), c.recordPath (keyOf names))

variable {env : Environment} {c : Cache} {disk : Disk} {d : Document} {source source' root : String}
  {names names' : SourceNames} {q : Place}

/-- Parts are the names of a path that only leads downwards unless one of them leads up. -/
theorem names_of_parts {ps : List String} :
    namesOf? (ps.map Component.ofPart) = some names ↔ ps = names ∧ ".." ∉ names := by
  induction ps generalizing names with
  | nil =>
    constructor
    · rintro ⟨⟩
      exact ⟨rfl, List.not_mem_nil⟩
    · rintro ⟨rfl, -⟩
      rfl
  | cons p rest ih =>
    rw [List.map_cons, Component.ofPart]
    split
    · rename_i hp
      constructor
      · intro h
        cases h
      · rintro ⟨rfl, hup⟩
        exact absurd (hp ▸ List.mem_cons_self ..) hup
    · rename_i hp
      rw [namesOf?, Option.map_eq_some_iff]
      constructor
      · rintro ⟨others, hothers, rfl⟩
        obtain ⟨rfl, hup⟩ := ih.mp hothers
        exact ⟨rfl, List.not_mem_cons_of_ne_of_not_mem (Ne.symm hp) hup⟩
      · rintro ⟨rfl, hup⟩
        exact ⟨rest, ih.mpr ⟨rfl, fun hmem => hup (List.mem_cons_of_mem _ hmem)⟩, rfl⟩

/-- A relative path keeps its parts. -/
theorem names_of_relative (h : isAbsolute source = false) :
    namesOf? (components source) = namesOf? ((parts source).map Component.ofPart) := by
  rw [components_eq, lead, if_neg (Bool.eq_false_iff.mp h)]
  split <;> rfl

/-- The names that are left of an absolute path behind its root. -/
theorem strip_root_iff (h : isAbsolute source = true) :
    (stripBase? (components root) (components source)).bind namesOf? = some names ↔
      Spells root source names ∧ ".." ∉ names := by
  have hsource := components_absolute h
  rw [Option.bind_eq_some_iff]
  constructor
  · rintro ⟨rest, hstrip, hnames⟩
    have hsplit := strip_base_iff.mp hstrip
    cases hroot : isAbsolute root with
    | false =>
      -- a root that is not absolute has nothing in common with the path, so that all of it is left
      cases hcomponents : components root with
      | nil =>
        rw [hcomponents, List.nil_append, hsource] at hsplit
        rw [← hsplit] at hnames
        cases hnames
      | cons first others =>
        rw [hcomponents, hsource] at hsplit
        obtain ⟨rfl, -⟩ := List.cons.inj hsplit
        rw [root_mem_components (hcomponents ▸ List.mem_cons_self ..)] at hroot
        cases hroot
    | true =>
      rw [hsource, components_absolute hroot, List.cons_append, List.cons_inj_right] at hsplit
      obtain ⟨above, below, hparts, habove, rfl⟩ := List.map_eq_append_iff.mp hsplit
      obtain rfl := (List.map_inj_right fun _ _ => of_part_inj).mp habove
      obtain ⟨rfl, hup⟩ := names_of_parts.mp hnames
      exact ⟨.absolute hroot h hparts, hup⟩
  · rintro ⟨hspells, hup⟩
    cases hspells with
    | relative hrelative => exact absurd (hrelative.symm.trans h) Bool.false_ne_true
    | absolute hroot _ hparts =>
      refine ⟨names.map Component.ofPart, strip_base_iff.mpr ?_, names_of_parts.mpr ⟨rfl, hup⟩⟩
      rw [hsource, components_absolute hroot, hparts, List.map_append, List.cons_append]

/-- A path that leads downwards from the root is left with the names that it spells. -/
theorem relative_names_iff :
    (c.relativeComponents? source).bind namesOf? = some names ↔
      Spells c.root source names ∧ ".." ∉ names := by
  rw [relativeComponents?]
  split
  · rename_i h
    exact strip_root_iff h
  · rename_i h
    have hrelative := Bool.eq_false_iff.mpr h
    rw [Option.bind_some, names_of_relative hrelative, names_of_parts]
    refine and_congr_left fun _ => ⟨.relative hrelative, fun hspells => ?_⟩
    cases hspells with
    | relative _ hnames => exact hnames
    | absolute _ habsolute => exact absurd habsolute h

theorem Spells.mem_parts (h : Spells root source names) {name : String} (hname : name ∈ names) :
    name ∈ parts source := by
  cases h with
  | relative _ hnames => rwa [hnames]
  | absolute _ _ hnames =>
    rw [hnames]
    exact List.mem_append_right _ hname

theorem Spells.steps (h : Spells root source names) (hup : ".." ∉ names) :
    ∀ name ∈ names, IsStep name :=
  fun _ hname => step_of_part (h.mem_parts hname) fun heq => hup (heq ▸ hname)

theorem source_names_iff :
    c.sourceNames source = .ok names ↔ Spells c.root source names ∧ IsSource names := by
  constructor
  · intro h
    have hsource := source_names_ok h
    refine ⟨?_, hsource⟩
    rw [sourceNames] at h
    split at h
    · rename_i hbind
      cases h
      exact (relative_names_iff.mp hbind).1
    · cases h
  · rintro ⟨hspells, hsource⟩
    have hup : ".." ∉ names := fun hmem => (hsource.steps _ hmem).not_parent rfl
    obtain ⟨name, rest, rfl⟩ := List.exists_cons_of_ne_nil hsource.ne_nil
    rw [sourceNames, relative_names_iff.mpr ⟨hspells, hup⟩]

/-- The names that a path spells are told by its parts. -/
theorem Spells.unique (h : Spells root source names) (h' : Spells root source names') :
    names = names' := by
  cases h with
  | relative hrelative hnames =>
    cases h' with
    | relative _ hnames' => exact hnames.symm.trans hnames'
    | absolute _ habsolute => exact absurd (hrelative.symm.trans habsolute) Bool.false_ne_true
  | absolute _ habsolute hnames =>
    cases h' with
    | relative hrelative => exact absurd (hrelative.symm.trans habsolute) Bool.false_ne_true
    | absolute _ _ hnames' => exact List.append_cancel_left (hnames.symm.trans hnames')

theorem Spells.mem_components (h : Spells root source names) (hsteps : ∀ name ∈ names, IsStep name)
    {name : String} (hname : name ∈ names) : Component.normal name ∈ components source := by
  rw [components_eq]
  refine List.mem_append_right _ (List.mem_map.mpr ⟨name, h.mem_parts hname, ?_⟩)
  exact if_neg (hsteps name hname).not_parent

theorem Escapes.not_source (h : Escapes root source) (hspells : Spells root source names) :
    ¬IsSource names := by
  intro hsource
  cases h with
  | up hother hup =>
    rw [← hspells.unique hother] at hup
    exact (hsource.steps _ hup).not_parent rfl
  | aside habsolute haside =>
    cases hspells with
    | relative hrelative => exact absurd (hrelative.symm.trans habsolute) Bool.false_ne_true
    | absolute hroot _ hnames => exact haside ⟨hroot, hnames ▸ List.prefix_append _ _⟩
  | root hroot => exact hsource.ne_nil (hspells.unique hroot)
  | nameless hnone =>
    obtain ⟨name, hname⟩ := List.exists_mem_of_ne_nil _ hsource.ne_nil
    exact hnone name (hspells.mem_components hsource.steps hname)

/-- A path that spells names leads out of the root unless they are those of a source. -/
theorem Spells.source_or_escapes (h : Spells root source names) :
    IsSource names ∨ Escapes root source := by
  by_cases hup : ".." ∈ names
  · exact .inr (.up h hup)
  · by_cases hnil : names = []
    · subst hnil
      exact .inr (.root h)
    · exact .inl ⟨hnil, h.steps hup⟩

/-- Exactly the paths that lead out of the root are refused. -/
theorem refused_iff : c.sourceNames source = .error (.outsideRoot source) ↔ Escapes c.root source := by
  constructor
  · intro h
    have haccept {names : SourceNames} (hspells : Spells c.root source names) : Escapes c.root source := by
      refine hspells.source_or_escapes.resolve_left fun hsource => ?_
      cases h.symm.trans (source_names_iff.mpr ⟨hspells, hsource⟩)
    cases habsolute : isAbsolute source with
    | false => exact haccept (.relative habsolute rfl)
    | true =>
      by_cases hunder : isAbsolute c.root = true ∧ parts c.root <+: parts source
      · obtain ⟨hroot, names, hnames⟩ := hunder
        exact haccept (.absolute hroot habsolute hnames.symm)
      · exact .aside habsolute hunder
  · intro h
    cases hresult : c.sourceNames source with
    | error f => rw [source_names_error hresult]
    | ok names =>
      obtain ⟨hspells, hsource⟩ := source_names_iff.mp hresult
      exact absurd hsource (h.not_source hspells)

theorem apply_refused (h : c.sourceNames source = .error (.outsideRoot source)) :
    c.apply env disk d source = (disk, c, .error (.outsideRoot source)) := by
  have hprepare : c.prepare disk d source = .error (.outsideRoot source) := by
    rw [prepare, h]
    rfl
  rw [apply, hprepare]

/-- A relative path leads from the root to the names that it spells, and an absolute one leads there. -/
theorem Spells.leads (h : Spells root source names) (hsteps : ∀ name ∈ names, IsStep name) :
    target (join root source) = target root ++ names := by
  cases h with
  | relative hsource hnames =>
    rw [target_join hsource, follow_parts, hnames, follow_steps hsteps]
  | absolute _ hsource hnames =>
    rw [join_absolute hsource, target, follow_parts, hnames, follow_append, follow_steps hsteps, target,
      follow_parts]

theorem source_below (h : IsSource names) : Below c.root (c.sourcePath names) :=
  ⟨names, h.ne_nil, components_join_names h.steps c.root⟩

theorem artifact_below (hcache : OfNames c.options.cacheDir) (h : IsSource names)
    (format : ArtifactFormat) : Below c.root (c.artifactFile names format) := by
  obtain ⟨inner, hinner⟩ := hcache
  obtain ⟨-, habove, hlast⟩ := h.split
  have hname : components (c.artifactFile names format) = _ ++ [_] :=
    artifact_file_join h format ▸
      components_join_names (List.forall_mem_singleton.mpr (artifact_name_step format hlast)) _
  refine ⟨inner ++ renamed (artifactName format) names, by simp [renamed], ?_⟩
  rw [hname, components_join_names habove, join_components hinner]
  simp [renamed]

theorem record_below (hcache : OfNames c.options.cacheDir) (hmanifest : OfNames c.options.manifestDir)
    (h : IsSource names) : Below c.root (c.recordPath (keyOf names)) := by
  obtain ⟨inner, hinner⟩ := hcache
  obtain ⟨deeper, hdeeper⟩ := hmanifest
  refine ⟨inner ++ deeper ++ renamed recordName names, by simp [renamed], ?_⟩
  rw [recordPath, record_components h, manifestDir, manifestPath, join_components hdeeper,
    join_components hinner]
  simp

/-- A path that continues the root by names leads to a place below it. -/
theorem Below.leads {path : String} (h : Below root path) : target root <+: target path := by
  obtain ⟨names, -, hcomponents⟩ := h
  have hsteps : ∀ name ∈ names, IsStep name := fun name hname => by
    have hmem : Component.normal name ∈ components path := by
      rw [hcomponents]
      exact List.mem_append_right _ (List.mem_map_of_mem hname)
    exact step_of_mem_components hmem
  have hparts : parts path = parts root ++ names := by
    rw [parts_eq, hcomponents, List.filterMap_append, ← parts_eq, parts_of_normal]
  refine ⟨names, ?_⟩
  rw [target, target, follow_parts, follow_parts [] path, hparts, follow_append, follow_steps hsteps]

/-- Writing a document changes no file but those of its source. -/
theorem apply_others (hq : ∀ names, c.sourceNames source = .ok names → q ∉ c.placesOf names) :
    (c.apply env disk d source).1.tree.contentAt? q = disk.tree.contentAt? q := by
  have houtcome := apply_applied env c disk d source
  generalize c.apply env disk d source = outcome at houtcome
  cases houtcome with
  | unprepared | refused => rfl
  | unwritten hp _ hwrite =>
    have hsource := source_names_ok (prepare_ok.mp hp).1
    exact (source_wrote hsource hwrite).1.unchanged q
  | written hp _ hwrite hpublish =>
    obtain ⟨hnames, -, -⟩ := prepare_ok.mp hp
    have hsource := source_names_ok hnames
    have hnot := hq _ hnames
    rw [mem_places, not_or, not_or, not_exists] at hnot
    obtain ⟨hself, hartifacts, hrecord⟩ := hnot
    obtain ⟨⟨_, _, hpublishes⟩, -⟩ := publish_wrote hsource hpublish
    have hfirst := (source_wrote hsource hwrite).1.others q (by rwa [target_source hsource])
    refine (hpublishes.wrote.others q ?_).trans hfirst
    simp only [List.forall_mem_cons, List.not_mem_nil, false_imp_iff, implies_true, and_true,
      target_artifact_attempt hsource, target_record_attempt hsource]
    exact ⟨hartifacts _, hartifacts _, hrecord⟩

/-- No file that is written for a source is outside the root, except for its record where the directory of
records is not given by names. -/
theorem apply_below (hcache : OfNames c.options.cacheDir) (hnames : c.sourceNames source = .ok names)
    (hq : ¬target c.root <+: q)
    (hrecord : OfNames c.options.manifestDir ∨ q ≠ target (c.recordPath (keyOf names))) :
    (c.apply env disk d source).1.tree.contentAt? q = disk.tree.contentAt? q := by
  have hsource := source_names_ok hnames
  refine apply_others fun names' hnames' hmem => ?_
  obtain rfl := Except.ok.inj (hnames.symm.trans hnames')
  rcases mem_places.mp hmem with rfl | ⟨format, rfl⟩ | rfl
  · exact hq (List.prefix_append _ _)
  · rw [← target_artifact hsource] at hq
    exact hq (artifact_below hcache hsource format).leads
  · rw [← target_record hsource] at hq hrecord
    exact hq (record_below hcache (hrecord.resolve_right fun hne => hne rfl) hsource).leads

theorem locate_ok (h : c.sourceNames source = .ok names) :
    c.locate source = .ok (keyOf names, ArtifactFormat.all.map (c.artifactFile names),
      c.recordPath (keyOf names)) := by
  rw [locate, h]
  rfl

theorem locate_refused (h : c.sourceNames source = .error (.outsideRoot source)) :
    c.locate source = .error (.outsideRoot source) := by
  rw [locate, h]
  rfl

theorem apply_spelled (h : c.sourceNames source = .ok names) (h' : c.sourceNames source' = .ok names) :
    c.apply env disk d source = c.apply env disk d source' := by
  have hprepare : c.prepare disk d source = c.prepare disk d source' := by
    rw [prepare, h, prepare, h']
  rw [apply, hprepare, apply]

/-- An accepted path leads to where its names lead from the root. -/
theorem source_leads (h : c.sourceNames source = .ok names) :
    target (join c.root source) = target c.root ++ names := by
  obtain ⟨hspells, hsource⟩ := source_names_iff.mp h
  exact hspells.leads hsource.steps

/-- A path is accepted if and only if it spells names under the root, and any other one is refused before
anything is done. What is written for an accepted path lies below the root while the directories of the cache
are given by names. All paths to one place have one key and the same files, and no other path has that key. -/
theorem sources_confined (c : Cache) :
    (∀ source names, c.sourceNames source = .ok names ↔ Spells c.root source names ∧ IsSource names) ∧
    (∀ source names, c.sourceNames source = .ok names →
      names ≠ [] ∧ components (keyOf names) = names.map .normal ∧
      target (c.sourcePath names) = target (join c.root source) ∧
      (OfNames c.options.cacheDir →
        Below c.root (c.sourcePath names) ∧ (∀ format, Below c.root (c.artifactFile names format)) ∧
        (OfNames c.options.manifestDir → Below c.root (c.recordPath (keyOf names))) ∧
        ∀ env disk d q, ¬target c.root <+: q →
          OfNames c.options.manifestDir ∨ q ≠ target (c.recordPath (keyOf names)) →
          (c.apply env disk d source).1.tree.contentAt? q = disk.tree.contentAt? q)) ∧
    (∀ source source' names, Spells c.root source names → Spells c.root source' names →
      IsSource names →
      (∃ found, c.locate source = .ok found ∧ c.locate source' = .ok found) ∧
        ∀ env disk d, c.apply env disk d source = c.apply env disk d source') ∧
    (∀ source source' names names', c.sourceNames source = .ok names →
      c.sourceNames source' = .ok names' →
      (keyOf names = keyOf names' → names = names') ∧
      (target (join c.root source) = target (join c.root source') →
        c.locate source = c.locate source')) ∧
    ∀ source, (Escapes c.root source ↔ c.sourceNames source = .error (.outsideRoot source)) ∧
      (Escapes c.root source → c.locate source = .error (.outsideRoot source) ∧
        ∀ env disk d, c.apply env disk d source = (disk, c, .error (.outsideRoot source))) := by
  refine ⟨fun source names => source_names_iff, fun source names h => ?_,
    fun source source' names hspells hspells' hsource => ?_, fun source source' names names' h h' => ?_,
    fun source => ⟨refused_iff.symm, fun hescapes => ?_⟩⟩
  · have hsource := source_names_ok h
    refine ⟨hsource.ne_nil, components_of_names hsource.steps, ?_, fun hcache => ?_⟩
    · rw [target_source hsource, source_leads h, sourcePlace]
    · exact ⟨source_below hsource, artifact_below hcache hsource,
        fun hmanifest => record_below hcache hmanifest hsource,
        fun env disk d q hq hrecord => apply_below hcache h hq hrecord⟩
  · have hnames := source_names_iff.mpr ⟨hspells, hsource⟩
    have hnames' := source_names_iff.mpr ⟨hspells', hsource⟩
    exact ⟨⟨_, locate_ok hnames, locate_ok hnames'⟩, fun env disk d => apply_spelled hnames hnames'⟩
  · refine ⟨key_inj (source_names_ok h) (source_names_ok h'), fun hplace => ?_⟩
    rw [source_leads h, source_leads h'] at hplace
    rw [locate_ok h, locate_ok h', List.append_cancel_left hplace]
  · have hrefused := refused_iff.mpr hescapes
    exact ⟨locate_refused hrefused, fun env disk d => apply_refused hrefused⟩

section Example

def tidy : Cache := openAt ⟨{}, 0, 0⟩ "/r" {}

theorem spells_relative : Spells "/r" "./sub//a.dx" ["sub", "a.dx"] :=
  .relative (by decide +kernel) (by decide +kernel)

theorem spells_absolute : Spells "/r" "/r/sub/./a.dx" ["sub", "a.dx"] :=
  .absolute (by decide +kernel) (by decide +kernel) (by decide +kernel)

theorem escapes_upwards : Escapes "/r" "sub/../../a.dx" :=
  .up (.relative (by decide +kernel) rfl) (by decide +kernel)

/-- Two spellings of one source have the same files below the root, and a path that leads up is refused. -/
theorem sources_confined_spelled :
    (∃ found, tidy.locate "./sub//a.dx" = .ok found ∧ tidy.locate "/r/sub/./a.dx" = .ok found) ∧
    Below "/r" (tidy.recordPath (keyOf ["sub", "a.dx"])) ∧
    (tidy.apply steady ⟨{}, 0, 0⟩ shelf "./sub//a.dx").1.tree.contentAt? ["a.dx"] = none ∧
    tidy.apply steady ⟨{}, 0, 0⟩ shelf "sub/../../a.dx" =
      (⟨{}, 0, 0⟩, tidy, .error (.outsideRoot "sub/../../a.dx")) := by
  obtain ⟨haccepts, hbelow, hspellings, -, hrefuses⟩ := sources_confined tidy
  have hsource : IsSource ["sub", "a.dx"] := by
    refine ⟨by decide, ?_⟩
    rw [List.forall_mem_cons, List.forall_mem_singleton]
    exact ⟨⟨by decide, by decide, by decide, by decide⟩, by decide, by decide, by decide, by decide⟩
  have hcache : OfNames tidy.options.cacheDir := ⟨[".dx", "cache"], by decide +kernel⟩
  have hmanifest : OfNames tidy.options.manifestDir := ⟨["manifest"], by decide +kernel⟩
  have hnames := (haccepts _ _).mpr ⟨spells_relative, hsource⟩
  obtain ⟨-, -, -, hfiles⟩ := hbelow _ _ hnames
  obtain ⟨-, -, hrecord, hframe⟩ := hfiles hcache
  exact ⟨(hspellings _ _ _ spells_relative spells_absolute hsource).1, hrecord hmanifest,
    hframe steady ⟨{}, 0, 0⟩ shelf ["a.dx"] (by decide +kernel) (.inl hmanifest),
    (hrefuses _).2 escapes_upwards |>.2 steady ⟨{}, 0, 0⟩ shelf⟩

/-- The directory of records is a directory beside the root. -/
def straying : Cache := openAt ⟨{}, 0, 0⟩ "/r" { manifestDir := "../../../aside" }

/-- With the directory of artifacts given by names, a record is still written outside the root. -/
theorem record_strays :
    OfNames straying.options.cacheDir ∧ straying.sourceNames "a.dx" = .ok ["a.dx"] ∧
    ¬target straying.root <+: ["aside", "a.dx.json"] ∧
    (straying.apply steady ⟨{}, 0, 0⟩ shelf "a.dx").1.tree.contentAt? ["aside", "a.dx.json"] ≠
      (⟨{}, 0, 0⟩ : Disk).tree.contentAt? ["aside", "a.dx.json"] :=
  ⟨⟨[".dx", "cache"], by decide +kernel⟩, rfl, by decide +kernel, by decide +kernel⟩

end Example

end DocForms.Cache
