import DocForms.Proofs.Cache.Jobs

namespace DocForms.Cache
open DocForms.Path FileTree

attribute [local irreducible] Path.join

variable {env : Environment} {c c' : Cache} {disk disk' : Disk} {t₀ t t' : FileTree}
  {source : String} {sources : List String} {names : SourceNames} {q : Place}

/-- What the task for a source may write. -/
def Touches (c : Cache) (source : String) (q : Place) : Prop :=
  ∃ names, c.sourceNames source = .ok names ∧ q ∈ c.madePlaces names

/-- What all tasks together may write. -/
def MayWrite (c : Cache) (sources : List String) (q : Place) : Prop :=
  ∃ source ∈ sources, c.Touches source q

/-- What there is to make of a source, with the given files. -/
def deriveIn (c : Cache) (t : FileTree) (source : String) : Except Failure Derived :=
  c.derive { tree := t } source

theorem derive_in_ok {s : Derived} (h : c.deriveIn t source = .ok s) :
    c.sourceNames source = .ok s.names ∧ ∃ bytes, t.read (c.sourcePath s.names) = .ok bytes := by
  obtain ⟨hnames, bytes, -, -, -, hread, -⟩ := derive_ok.mp h
  exact ⟨hnames, bytes, hread⟩

/-- What tasks for sources leave as it is, all of them together. Nothing is written below a root that
does not lead to a directory. -/
structure Calm (c : Cache) (sources : List String) (t₀ t : FileTree) : Prop where
  keeps : t₀.Keeps t
  others : ∀ q, ¬c.MayWrite sources q → t.contentAt? q = t₀.contentAt? q
  lists : ∀ q, t.Lists q → t₀.Lists q ∨ c.MayWrite sources q
  rooted : t = t₀ ∨ t₀.place c.root = .ok (target c.root)

theorem Calm.refl (c : Cache) (sources : List String) (t : FileTree) : Calm c sources t t :=
  ⟨.refl t, fun _ _ => rfl, fun _ => .inl, .inl rfl⟩

/-- Where a source could be read, the root leads to a directory. -/
theorem Calm.root (h : Calm c sources t₀ t) {s : Derived} (hs : c.deriveIn t source = .ok s) :
    t₀.place c.root = .ok (target c.root) := by
  rcases h.rooted with rfl | hroot
  · obtain ⟨hnames, bytes, hread⟩ := derive_in_ok hs
    exact (place_join (names_relative (source_names_ok hnames).steps) _ (read_ok.mp hread).1).1
  · exact hroot

theorem Calm.wrote (h : Calm c sources t₀ t) (hroot : t₀.place c.root = .ok (target c.root))
    {path : String} {content : ByteArray} {placed : Bool} (hmay : c.MayWrite sources (target path))
    (hw : Wrote t t' path content placed) : Calm c sources t₀ t' := by
  refine ⟨h.keeps.trans hw.keeps, fun q hq => ?_, fun q hq => ?_, .inr hroot⟩
  · have hne : q ≠ target path := by
      rintro rfl
      exact hq hmay
    exact (hw.others q hne).trans (h.others q hq)
  · rcases hw.lists q hq with hq | ⟨-, rfl⟩
    · exact h.lists q hq
    · exact .inr hmay

/-- What attempts did to the files that a task owns. -/
structure Did (own : Place → Prop) (t₀ t : FileTree) (attempts : List Attempt) : Prop where
  untouched : ∀ q, own q → (∀ a ∈ attempts, q ≠ target a.path) →
    t.contentAt? q = t₀.contentAt? q
  failed : ∀ a ∈ attempts, own (target a.path) → a.done = false →
    t.contentAt? (target a.path) = t₀.contentAt? (target a.path)
  written : ∀ a ∈ attempts, own (target a.path) → a.done = true → t.read a.path = .ok a.content

section Did
variable {own : Place → Prop} {attempts : List Attempt}

theorem Did.nil (h : Others own t₀ t) : Did own t₀ t [] :=
  ⟨fun q hq _ => h.contents q hq, nofun, nofun⟩

theorem Did.others (h : Did own t₀ t attempts) (ho : Others own t t') : Did own t₀ t' attempts :=
  ⟨fun q hq hne => (ho.contents q hq).trans (h.untouched q hq hne),
    fun a ha hown hdone => (ho.contents _ hown).trans (h.failed a ha hown hdone),
    fun a ha hown hdone => read_keeps ho.keeps (ho.contents _ hown) (h.written a ha hown hdone)⟩

/-- One more attempt, at another place than those before. -/
theorem Did.wrote (h : Did own t₀ t attempts) {a : Attempt} (hw : Wrote t t' a.path a.content a.done)
    (hnew : ∀ b ∈ attempts, target b.path ≠ target a.path) : Did own t₀ t' (attempts ++ [a]) := by
  refine ⟨fun q hq hne => ?_, fun b hb hown hdone => ?_, fun b hb hown hdone => ?_⟩
  · rw [hw.others q (hne a (by simp))]
    exact h.untouched q hq fun b hb => hne b (List.mem_append_left _ hb)
  · rcases List.mem_append.mp hb with hb | hb
    · rw [hw.others _ (hnew b hb)]
      exact h.failed b hb hown hdone
    · obtain rfl := List.mem_singleton.mp hb
      rw [hw.failed hdone]
      exact h.untouched _ hown fun a ha => (hnew a ha).symm
  · rcases List.mem_append.mp hb with hb | hb
    · exact read_keeps hw.keeps (hw.others _ (hnew b hb)) (h.written b hb hown hdone)
    · obtain rfl := List.mem_singleton.mp hb
      exact hw.written hdone

end Did

/-- How the task for a source can end, and what it did to the files that are its own. What it made, it
made of the source as it was at some time in between. -/
inductive Ends (env : Environment) (c : Cache) (sources : List String) (own : Place → Prop)
    (t₀ : FileTree) (source : String) (t : FileTree) : Ending → Prop
  | underived {u : FileTree} {f : Failure} (hcalm : Calm c sources t₀ u)
      (hf : c.deriveIn u source = .error f) (hkept : Did own t₀ t []) :
    Ends env c sources own t₀ source t (none, .error f)
  | made {u : FileTree} {s : Derived} {made : Published} {i : Nat} {compactDone bufferDone : Bool}
      (hcalm : Calm c sources t₀ u) (hs : c.deriveIn u source = .ok s)
      (hrecord : made.record = c.recordFor s (env.clock i))
      (hstale : made.stale = undone (c.attempts s made.record compactDone bufferDone made.saved))
      (hdid : Did own t₀ t (c.attempts s made.record compactDone bufferDone made.saved)) :
    Ends env c sources own t₀ source t (some (s.names, made), c.outcome s.names made)

theorem Ends.source_names {own : Place → Prop} {e : Ending}
    (h : Ends env c sources own t₀ source t e) {m : SourceNames × Published} (hm : m ∈ e.1) :
    c.sourceNames source = .ok m.1 := by
  cases h with
  | underived => cases hm
  | made _ hs =>
    cases hm
    exact (derive_in_ok hs).1

/-- The duty of the task for a source. -/
def duty (env : Environment) (c : Cache) (sources : List String) (own : String → Place → Prop)
    (t₀ : FileTree) (source : String) : Duty Ending where
  own := own source
  touches := c.Touches source
  post := Ends env c sources (own source) t₀ source

section Ensures
variable {α : Type} {calm : FileTree → Prop} {work : Duty α}

theorem ensures_writing {path : String} {content : ByteArray} {next : Bool → Task α}
    (hends : EndsInStep path) (htouches : work.touches (target path))
    (hcalm : ∀ t t' placed, calm t → Wrote t t' path content placed → calm t') {n : Nat}
    (hnext : ∀ u t' placed, Others work.own t u → Wrote u t' path content placed →
      (next placed).Ensures env calm work t') :
    (Task.writing path content next n).Ensures env calm work t := by
  induction n generalizing t with
  | zero => exact hnext t t false (.refl _ _) ⟨.refl t, fun _ _ => rfl, fun _ => .inl, fun _ => rfl, nofun⟩
  | succ n ih =>
    refine ⟨hends, htouches, fun u t' placed hu ho hw => ⟨hcalm u t' placed hu hw, ?_⟩⟩
    cases placed with
    | true => exact hnext u t' true ho hw
    | false =>
      exact ih fun u' t'' placed ho' hw' =>
        hnext u' t'' placed ((ho.trans (others_of_unplaced hw)).trans ho') hw'

theorem ensures_write {path : String} {content : ByteArray} {next : Bool → Task α}
    (hends : EndsInStep path) (htouches : work.touches (target path))
    (hcalm : ∀ t t' placed, calm t → Wrote t t' path content placed → calm t')
    (hnext : ∀ u t' placed, Others work.own t u → Wrote u t' path content placed →
      (next placed).Ensures env calm work t') :
    (c.writing path content next).Ensures env calm work t := by
  rw [writing]
  exact ensures_writing hends htouches hcalm hnext

theorem ensures_publishing {s : Derived} {next : Published → Task α} (hsource : IsSource s.names)
    (htouches : ∀ q ∈ c.madePlaces s.names, work.touches q)
    (hcalm : ∀ t t' path content placed, target path ∈ c.madePlaces s.names → calm t →
      Wrote t t' path content placed → calm t') (hstart : Others work.own t₀ t)
    (hnext : ∀ t' made i compactDone bufferDone, made.record = c.recordFor s (env.clock i) →
      made.stale = undone (c.attempts s made.record compactDone bufferDone made.saved) →
      Did work.own t₀ t' (c.attempts s made.record compactDone bufferDone made.saved) →
      (next made).Ensures env calm work t') :
    (c.publishing s next).Ensures env calm work t := by
  have hartifact (format : ArtifactFormat) :
      target (c.artifactFile s.names format) ∈ c.madePlaces s.names :=
    mem_made_places.mpr (.inl ⟨format, target_artifact hsource format⟩)
  have hrecord : target (c.recordPath (keyOf s.names)) ∈ c.madePlaces s.names :=
    mem_made_places.mpr (.inr (target_record hsource))
  have hformats : target (c.artifactFile s.names .compact) ≠ target (c.artifactFile s.names .buffer) := by
    rw [target_artifact hsource, target_artifact hsource]
    exact artifact_places_differ
  have hapart (format : ArtifactFormat) :
      target (c.artifactFile s.names format) ≠ target (c.recordPath (keyOf s.names)) := by
    rw [target_artifact hsource, target_record hsource]
    exact artifact_place_ne_record_place
  rw [publishing]
  refine ensures_write (artifact_ends hsource .compact) (htouches _ (hartifact _))
    (fun u u' placed => hcalm u u' _ _ placed (hartifact _)) fun u₁ t₁ compactDone ho₁ hw₁ => ?_
  have hcompact : Did work.own t₀ t₁
      [c.artifactAttempt s.names .compact s.text.toUTF8 compactDone] :=
    (Did.nil (hstart.trans ho₁)).wrote (a := c.artifactAttempt _ _ _ _) hw₁ (List.forall_mem_nil _)
  refine ensures_write (artifact_ends hsource .buffer) (htouches _ (hartifact _))
    (fun u u' placed => hcalm u u' _ _ placed (hartifact _)) fun u₂ t₂ bufferDone ho₂ hw₂ => ?_
  have hbuffer := (hcompact.others ho₂).wrote (a := c.artifactAttempt _ _ _ _) hw₂
    (by simpa [artifactAttempt] using hformats)
  rw [Task.Ensures]
  intro i
  refine ensures_write (record_ends hsource) (htouches _ hrecord)
    (fun u u' placed => hcalm u u' _ _ placed hrecord) fun u₃ t₃ saved ho₃ hw₃ => ?_
  have hlast : Wrote u₃ t₃ (c.recordAttempt s.names (c.recordFor s (env.clock i)) saved).path
      (c.recordAttempt s.names (c.recordFor s (env.clock i)) saved).content saved := by
    dsimp only [recordAttempt]
    exact hw₃
  have hall := (hbuffer.others ho₃).wrote hlast
    (by simpa [artifactAttempt, recordAttempt] using ⟨hapart .compact, hapart .buffer⟩)
  exact hnext t₃ _ i compactDone bufferDone rfl rfl hall

end Ensures

theorem ensures_job (own : String → Place → Prop) (hmem : source ∈ sources) :
    (c.job source).Ensures env (Calm c sources t₀) (duty env c sources own t₀ source) t₀ := by
  rw [job]
  cases hnames : c.sourceNames source with
  | error f =>
    refine fun t ho => .underived (.refl _ _ t₀) ?_ (.nil ho)
    rw [deriveIn, derive_eq, hnames]
    rfl
  | ok names =>
    dsimp only
    rw [Task.Ensures]
    intro t hcalm ho
    have hderive : c.deriveIn t source = c.derived names (t.read (c.sourcePath names)) := by
      rw [deriveIn, derive_eq, hnames]
      rfl
    rw [← hderive]
    cases hs : c.deriveIn t source with
    | error f => exact fun t' ho' => .underived hcalm hs (.nil (ho.trans ho'))
    | ok s =>
      have hnames' := (derive_in_ok hs).1
      have htouches : ∀ q ∈ c.madePlaces s.names, c.Touches source q :=
        fun q hq => ⟨s.names, hnames', hq⟩
      refine ensures_publishing (source_names_ok hnames') htouches ?_ ho
        fun t' made i _ _ hrecord hstale hdid t'' ho' =>
          .made hcalm hs hrecord hstale (hdid.others ho')
      exact fun u u' path content placed hpath hu hw =>
        hu.wrote (hcalm.root hs) ⟨source, hmem, htouches _ hpath⟩ hw

theorem mem_right {α β : Type} {R : α → β → Prop} {xs : List α} {ys : List β}
    (h : List.Forall₂ R xs ys) {x : α} (hx : x ∈ xs) : ∃ y ∈ ys, R x y := by
  induction h with
  | nil => cases hx
  | @cons x' y xs ys hxy _ ih =>
    rcases List.mem_cons.mp hx with rfl | hx
    · exact ⟨y, List.mem_cons_self .., hxy⟩
    · obtain ⟨y', hy', hxy'⟩ := ih hx
      exact ⟨y', List.mem_cons_of_mem _ hy', hxy'⟩

theorem mem_left {α β : Type} {R : α → β → Prop} {xs : List α} {ys : List β}
    (h : List.Forall₂ R xs ys) {y : β} (hy : y ∈ ys) : ∃ x ∈ xs, R x y :=
  mem_right h.flip hy

theorem pairwise_right {α β : Type} {R : α → β → Prop} {P : α → α → Prop} {Q : β → β → Prop}
    (hPQ : ∀ x x' y y', P x x' → R x y → R x' y' → Q y y') {xs : List α} {ys : List β}
    (h : List.Forall₂ R xs ys) (hxs : xs.Pairwise P) : ys.Pairwise Q := by
  induction h with
  | nil => exact .nil
  | @cons x y xs ys hxy hrest ih =>
    obtain ⟨hfirst, hxs⟩ := List.pairwise_cons.mp hxs
    refine .cons (fun y' hy' => ?_) (ih hxs)
    obtain ⟨x', hx', hxy'⟩ := mem_left hrest hy'
    exact hPQ x x' y y' (hfirst x' hx') hxy hxy'

/-- No two of the sources are the same. -/
def NamedOnce (c : Cache) (sources : List String) : Prop :=
  sources.Pairwise fun a b => ∀ names, c.sourceNames a = .ok names → c.sourceNames b ≠ .ok names

/-- What is made of different sources is known under different keys. -/
theorem keys_apart {R : String → Ending → Prop} {endings : List Ending} (honce : c.NamedOnce sources)
    (hR : ∀ {source e}, R source e → ∀ m ∈ e.1, c.sourceNames source = .ok m.1)
    (h : List.Forall₂ R sources endings) : KeysApart endings := by
  refine pairwise_right (fun a b e e' hne he he' m hm m' hm' hkey => ?_) h honce
  have hnames := hR he m hm
  have hnames' := hR he' m' hm'
  have hsame := key_inj (source_names_ok hnames) (source_names_ok hnames') hkey
  exact hne m.1 hnames (hsame ▸ hnames')

/-- Whichever task acts next: all of them end, and each one has done to its files what it was to do, if
no other may write these. -/
theorem together_ends {results : Outcomes} (own : String → Place → Prop)
    (hapart : sources.Pairwise fun a b =>
      ∀ q, (own a q → ¬c.Touches b q) ∧ (own b q → ¬c.Touches a q))
    (h : RegeneratesTogether env c disk sources disk' c' results) :
    ∃ endings, Calm c sources disk.tree disk'.tree ∧
      List.Forall₂ (fun source ending =>
        Ends env c sources (own source) disk.tree source disk'.tree ending) sources endings ∧
      c' = c.takeAll endings ∧ results = sources.zip (endings.map Prod.snd) := by
  obtain ⟨endings, htogether, hc, hresults⟩ := h
  have hduties : (sources.map (duty env c sources own disk.tree)).Pairwise Duty.Apart :=
    List.pairwise_map.mpr hapart
  have hjobs : List.Forall₂ (fun work task =>
      Task.Ensures env (Calm c sources disk.tree) work task disk.tree)
      (sources.map (duty env c sources own disk.tree)) (sources.map c.job) := by
    rw [List.forall₂_map_left_iff, List.forall₂_map_right_iff, List.forall₂_same]
    exact fun source hmem => ensures_job own hmem
  obtain ⟨hcalm, hends⟩ := together_ensures hduties htogether hjobs (.refl _ _ _)
  exact ⟨endings, hcalm, List.forall₂_map_left_iff.mp hends, hc, hresults⟩

end DocForms.Cache
