import DocForms.Proofs.Files.Paths

namespace DocForms.FileTree
open DocForms.Path

/-- What the file at a place holds. -/
def contentAt? (t : FileTree) (p : Place) : Option ByteArray :=
  match t.find? p with
  | some (.file content) => some content
  | _ => none

/-- All directories of one tree are directories of another. -/
def Keeps (t t' : FileTree) : Prop :=
  ∀ p, t.isDirectory p = true → t'.isDirectory p = true

theorem Keeps.refl (t : FileTree) : t.Keeps t :=
  fun _ h => h

theorem Keeps.trans {t t' t'' : FileTree} (h : t.Keeps t') (h' : t'.Keeps t'') : t.Keeps t'' :=
  fun p hp => h' p (h p hp)

/-- A file stands at a place, whatever it holds. -/
def Lists (t : FileTree) (p : Place) : Prop :=
  ∃ content, (p, Entry.file content) ∈ t.entries

theorem directory_iff {t : FileTree} {p : Place} :
    t.isDirectory p = true ↔ t.find? p = some .directory := by
  rw [isDirectory]
  cases t.find? p with
  | none => simp
  | some e => cases e <;> simp

theorem content_iff {t : FileTree} {p : Place} {content : ByteArray} :
    t.contentAt? p = some content ↔ t.find? p = some (.file content) := by
  rw [contentAt?]
  cases t.find? p with
  | none => simp
  | some e => cases e <;> simp

theorem root_directory (t : FileTree) : t.isDirectory [] = true :=
  rfl

theorem lookup_other {α : Type} {p q : Place} (entries : List (Place × α)) (h : q ≠ p) :
    (entries.filter (·.1 != p)).lookup q = entries.lookup q := by
  induction entries with
  | nil => rfl
  | cons e rest ih =>
    obtain ⟨r, x⟩ := e
    by_cases hr : r = p
    · subst hr
      have hq : (q == r) = false := by simpa using h
      simp [List.lookup_cons, hq, ih]
    · simp [List.lookup_cons, hr, ih]

theorem find_put {t : FileTree} {p q : Place} {e : Entry} (hp : p ≠ []) :
    (t.put p e).find? q = if q = p then some e else t.find? q := by
  rw [find?, find?, put]
  by_cases hq : q = p
  · subst hq
    simp [hp]
  · have hne : (q == p) = false := by simpa using hq
    simp [hq, List.lookup_cons, hne, lookup_other t.entries hq]

/-- Something put where no directory is leaves all directories. -/
theorem keeps_put {t : FileTree} {p : Place} {e : Entry} (hp : p ≠ [])
    (h : t.isDirectory p = false ∨ e = .directory) : t.Keeps (t.put p e) := by
  intro q hq
  rw [directory_iff] at hq ⊢
  rw [find_put hp]
  split
  · rename_i heq
    subst heq
    rcases h with h | rfl
    · rw [directory_iff.mpr hq] at h
      cases h
    · rfl
  · exact hq

theorem content_put_file {t : FileTree} {p q : Place} {content : ByteArray} (hp : p ≠ []) :
    (t.put p (.file content)).contentAt? q = if q = p then some content else t.contentAt? q := by
  by_cases h : q = p
  · rw [if_pos h, contentAt?, find_put hp, if_pos h]
  · rw [if_neg h, contentAt?, find_put hp, if_neg h, contentAt?]

/-- A directory that comes to be where nothing was is no file. -/
theorem content_put_directory {t : FileTree} {p q : Place} (hp : p ≠ []) (h : t.find? p = none) :
    (t.put p .directory).contentAt? q = t.contentAt? q := by
  by_cases heq : q = p
  · rw [contentAt?, find_put hp, if_pos heq, contentAt?, heq, h]
  · rw [contentAt?, find_put hp, if_neg heq, contentAt?]

theorem lists_put {t : FileTree} {p q : Place} {e : Entry} (h : (t.put p e).Lists q) :
    t.Lists q ∨ q = p ∧ e ≠ .directory := by
  obtain ⟨content, h⟩ := h
  rcases List.mem_cons.mp h with heq | h
  · obtain ⟨rfl, rfl⟩ := Prod.mk.inj heq
    exact .inr ⟨rfl, nofun⟩
  · exact .inl ⟨content, (List.mem_filter.mp h).1⟩

/-- The files without what stands at one place. -/
def erase (t : FileTree) (p : Place) : FileTree :=
  ⟨t.entries.filter (·.1 != p)⟩

theorem find_erase {t : FileTree} {p q : Place} (h : q ≠ p) : (t.erase p).find? q = t.find? q := by
  rw [find?, find?, erase, lookup_other t.entries h]

/-- A walk takes each step from a directory. -/
theorem walk_cons {t : FileTree} {p q : Place} {piece : String} {rest : List String} :
    t.walk p (piece :: rest) = .ok q ↔
      t.isDirectory p = true ∧ isUsableName piece = true ∧ t.walk (step p piece) rest = .ok q := by
  rw [walk, step, isDirectory]
  cases t.find? p with
  | none => simp
  | some e =>
    cases e with
    | file content => simp
    | directory =>
      dsimp only
      by_cases hhere : piece = "" ∨ piece = "."
      · have husable : isUsableName piece = true := by
          rcases hhere with rfl | rfl <;> decide
        simp [hhere, husable]
      · by_cases hup : piece = ".."
        · subst hup
          simp [show isUsableName ".." = true by decide]
        · by_cases husable : isUsableName piece = true
          · simp [hhere, hup, husable]
          · simp [hhere, hup, husable]

theorem walk_eq {t : FileTree} {p q : Place} {pieces : List String}
    (h : t.walk p pieces = .ok q) : q = follow p pieces := by
  induction pieces generalizing p with
  | nil =>
    cases h
    rfl
  | cons piece rest ih => exact ih (walk_cons.mp h).2.2

/-- A walk through directories leads to the same place while they are kept. -/
theorem walk_keeps {t t' : FileTree} (hk : t.Keeps t') {p q : Place} {pieces : List String}
    (h : t.walk p pieces = .ok q) : t'.walk p pieces = .ok q := by
  induction pieces generalizing p with
  | nil => exact h
  | cons piece rest ih =>
    obtain ⟨hdir, husable, hrest⟩ := walk_cons.mp h
    exact walk_cons.mpr ⟨hk p hdir, husable, ih hrest⟩

theorem walk_append {t : FileTree} {p q r : Place} {first second : List String}
    (h : t.walk p first = .ok q) (hrest : t.walk q second = .ok r) :
    t.walk p (first ++ second) = .ok r := by
  induction first generalizing p with
  | nil =>
    cases h
    exact hrest
  | cons piece rest ih =>
    obtain ⟨hdir, husable, h⟩ := walk_cons.mp h
    exact walk_cons.mpr ⟨hdir, husable, ih h⟩

theorem walk_split {t : FileTree} {p r : Place} {first second : List String}
    (h : t.walk p (first ++ second) = .ok r) :
    ∃ q, t.walk p first = .ok q ∧ t.walk q second = .ok r := by
  induction first generalizing p with
  | nil => exact ⟨p, rfl, h⟩
  | cons piece rest ih =>
    obtain ⟨hdir, husable, h⟩ := walk_cons.mp h
    obtain ⟨q, hfirst, hsecond⟩ := ih h
    exact ⟨q, walk_cons.mpr ⟨hdir, husable, hfirst⟩, hsecond⟩

theorem directory_of_walk {t : FileTree} {p q : Place} {path : String}
    (h : t.walk p (pieces path) = .ok q) : t.isDirectory p = true := by
  obtain ⟨piece, rest, hpieces⟩ := List.exists_cons_of_ne_nil (pieces_ne_nil path)
  rw [hpieces] at h
  exact (walk_cons.mp h).1

/-- A walk along a joined path is one walk after another. -/
theorem walk_join_iff {t : FileTree} {p r : Place} {b : String} (hb : isAbsolute b = false)
    (a : String) : t.walk p (pieces (join a b)) = .ok r ↔
      ∃ q, t.walk p (pieces a) = .ok q ∧ t.walk q (pieces b) = .ok r := by
  by_cases ha : a = ""
  · rw [ha, join_empty, pieces_empty]
    constructor
    · intro h
      exact ⟨p, walk_cons.mpr ⟨directory_of_walk h, by decide, rfl⟩, h⟩
    · rintro ⟨q, hfirst, hsecond⟩
      obtain ⟨-, -, hhere⟩ := walk_cons.mp hfirst
      cases hhere
      exact hsecond
  · rw [join_text hb ha]
    split
    · rename_i hslash
      obtain ⟨c, rfl, hpieces⟩ := cut_last_slash hslash
      rw [pieces_slash, hpieces]
      constructor
      · intro h
        obtain ⟨q, hfirst, hsecond⟩ := walk_split h
        have hhere : t.walk q [""] = .ok q :=
          walk_cons.mpr ⟨directory_of_walk hsecond, by decide, rfl⟩
        exact ⟨q, walk_append hfirst hhere, hsecond⟩
      · rintro ⟨r, hfirst, hsecond⟩
        obtain ⟨q, habove, hhere⟩ := walk_split hfirst
        obtain ⟨-, -, hsame⟩ := walk_cons.mp hhere
        cases hsame
        exact walk_append habove hsecond
    · rw [pieces_slash]
      exact ⟨walk_split, fun ⟨q, hfirst, hsecond⟩ => walk_append hfirst hsecond⟩

/-- All places on the way to a place are directories, and so is the place. -/
def Reaches (t : FileTree) (p : Place) : Prop :=
  ∀ q, q <+: p → t.isDirectory q = true

theorem Reaches.keeps {t t' : FileTree} (hk : t.Keeps t') {p : Place} (h : t.Reaches p) :
    t'.Reaches p :=
  fun q hq => hk q (h q hq)

theorem Reaches.above {t : FileTree} {p : Place} (h : t.Reaches p) : t.Reaches p.dropLast :=
  fun q hq => h q (hq.trans (List.dropLast_prefix p))

theorem Reaches.below {t : FileTree} {p : Place} {name : String} (h : t.Reaches p)
    (hdir : t.isDirectory (p ++ [name]) = true) : t.Reaches (p ++ [name]) := by
  intro q hq
  rcases List.prefix_concat_iff.mp hq with rfl | hq
  · exact hdir
  · exact h q hq

/-- Making the directories of a path keeps what is there; where it succeeds, they can be walked. -/
structure Opens (t t' : FileTree) (p : Place) (pieces : List String) (reached : Option Place) :
    Prop where
  keeps : t.Keeps t'
  contents : ∀ q, t'.contentAt? q = t.contentAt? q
  lists : ∀ q, t'.Lists q → t.Lists q
  walks : ∀ q, reached = some q → t'.Reaches q ∧ t'.walk p pieces = .ok q

/-- Where directories cannot be made, all is as it was. -/
theorem opens_none (t : FileTree) (p : Place) (pieces : List String) : Opens t t p pieces none :=
  ⟨.refl t, fun _ => rfl, fun _ hq => hq, fun _ h => absurd h.symm (Option.some_ne_none _)⟩

/-- One more piece in front, which leads to the place where the rest begins. -/
theorem Opens.cons {t u v : FileTree} {p q : Place} {piece : String} {rest : List String}
    {reached : Option Place} (hk : t.Keeps u) (hcontents : ∀ r, u.contentAt? r = t.contentAt? r)
    (hlists : ∀ r, u.Lists r → t.Lists r) (hdir : t.isDirectory p = true)
    (husable : isUsableName piece = true) (hstep : step p piece = q) (h : Opens u v q rest reached) :
    Opens t v p (piece :: rest) reached := by
  refine ⟨hk.trans h.keeps, fun r => (h.contents r).trans (hcontents r),
    fun r hr => hlists r (h.lists r hr), fun r hr => ?_⟩
  obtain ⟨hreaches, hwalk⟩ := h.walks r hr
  exact ⟨hreaches, walk_cons.mpr ⟨h.keeps p (hk p hdir), husable, by rwa [hstep]⟩⟩

theorem make_directories {t : FileTree} {p : Place} (hp : t.Reaches p) (pieces : List String) :
    Opens t (t.makeDirectories p pieces).1 p pieces (t.makeDirectories p pieces).2 := by
  induction pieces generalizing t p with
  | nil =>
    refine ⟨.refl t, fun _ => rfl, fun _ hq => hq, ?_⟩
    rintro q ⟨⟩
    exact ⟨hp, rfl⟩
  | cons piece rest ih =>
    have hdir := hp p (List.prefix_refl p)
    rw [makeDirectories]
    split
    · rename_i hhere
      have husable : isUsableName piece = true := by
        rcases hhere with rfl | rfl <;> decide
      exact (ih hp).cons (.refl t) (fun _ => rfl) (fun _ => id) hdir husable (by rw [step, if_pos hhere])
    rename_i hhere
    split
    · rename_i hup
      exact (ih hp.above).cons (.refl t) (fun _ => rfl) (fun _ => id) hdir (by rw [hup]; decide)
        (by rw [step, if_neg hhere, if_pos hup])
    rename_i hup
    have hstep : step p piece = p ++ [piece] := by rw [step, if_neg hhere, if_neg hup]
    split
    · exact opens_none t p _
    rename_i husable
    rw [Bool.not_eq_true', Bool.not_eq_false] at husable
    dsimp only
    split
    · rename_i hfind
      exact (ih (hp.below (directory_iff.mpr hfind))).cons (.refl t) (fun _ => rfl) (fun _ => id) hdir
        husable hstep
    · exact opens_none t p _
    · rename_i hfind
      have hne : p ++ [piece] ≠ [] := by simp
      have hk : t.Keeps (t.put (p ++ [piece]) .directory) := keeps_put hne (.inr rfl)
      have hbelow : (t.put (p ++ [piece]) .directory).Reaches (p ++ [piece]) := by
        apply (hp.keeps hk).below
        rw [directory_iff, find_put hne, if_pos rfl]
      exact (ih hbelow).cons hk (fun q => content_put_directory hne hfind)
        (fun q hq => (lists_put hq).resolve_right fun h => h.2 rfl) hdir husable hstep

theorem make_path (t : FileTree) (names : List String) :
    Opens t (t.makePath names).1 [] names (t.makePath names).2 := by
  have hroot : t.Reaches [] := fun q hq => by
    rw [List.prefix_nil.mp hq]
    exact root_directory t
  rw [makePath]
  split
  · exact make_directories hroot names
  · exact opens_none t [] names

/-- What an attempt to put a file into place did. -/
structure Wrote (t t' : FileTree) (path : String) (content : ByteArray) (done : Bool) : Prop where
  keeps : t.Keeps t'
  others : ∀ q, q ≠ target path → t'.contentAt? q = t.contentAt? q
  lists : ∀ q, t'.Lists q → t.Lists q ∨ done = true ∧ q = target path
  failed : done = false → t'.contentAt? (target path) = t.contentAt? (target path)
  written : done = true → t'.read path = .ok content

/-- An attempt that failed left all files as they were. -/
theorem Wrote.unchanged {t t' : FileTree} {path : String} {content : ByteArray}
    (h : Wrote t t' path content false) (q : Place) : t'.contentAt? q = t.contentAt? q := by
  by_cases hq : q = target path
  · rw [hq]
    exact h.failed rfl
  · exact h.others q hq

theorem place_eq {t : FileTree} {path : String} {p : Place} (h : t.place path = .ok p) :
    p = target path := by
  rw [place] at h
  split at h
  · exact walk_eq h
  · cases h

theorem usable_of_append {a b : String} (h : isUsablePath (a ++ b) = true) :
    isUsablePath a = true := by
  simp only [isUsablePath, String.utf8ByteSize_append, String.toList_append, Bool.and_eq_true,
    decide_eq_true_eq, Bool.not_eq_true', List.contains_append, Bool.or_eq_false_iff] at h ⊢
  exact ⟨Nat.le_trans (Nat.le_add_right _ _) h.1, h.2.1⟩

/-- What a relative path is joined to leads to a directory, if the joined path leads anywhere. -/
theorem place_join {t : FileTree} {p : Place} {b : String} (hb : isAbsolute b = false) (a : String)
    (h : t.place (join a b) = .ok p) :
    t.place a = .ok (target a) ∧ t.isDirectory (target a) = true := by
  rw [place] at h
  split at h
  · rename_i husable
    obtain ⟨q, hwalk, hrest⟩ := (walk_join_iff hb a).mp h
    obtain ⟨ending, hending⟩ := join_extends hb a
    rw [hending] at husable
    have hplace : t.place a = .ok q := by
      rw [place, if_pos (usable_of_append husable)]
      exact hwalk
    obtain rfl := place_eq hplace
    exact ⟨hplace, directory_of_walk hrest⟩
  · cases h

theorem place_keeps {t t' : FileTree} (hk : t.Keeps t') {path : String} {p : Place}
    (h : t.place path = .ok p) : t'.place path = .ok p := by
  rw [place] at h ⊢
  split at h
  · rename_i husable
    rw [if_pos husable]
    exact walk_keeps hk h
  · cases h

theorem read_ok {t : FileTree} {path : String} {content : ByteArray} :
    t.read path = .ok content ↔
      t.place path = .ok (target path) ∧ t.contentAt? (target path) = some content := by
  rw [read]
  cases hplace : t.place path with
  | error fault => simp [bind, Except.bind]
  | ok p =>
    have hp := place_eq hplace
    subst hp
    rw [content_iff]
    simp only [bind, Except.bind]
    cases t.find? (target path) with
    | none => simp
    | some e => cases e <;> simp [pure, Except.pure]

/-- Every file stands in directories. -/
def IsRooted (t : FileTree) : Prop :=
  ∀ p content, t.contentAt? p = some content → t.Reaches p.dropLast

/-- Names that can be walked in one tree can be walked in another that has the directories above. -/
theorem walk_names {t t' : FileTree} {p q : Place} {names : List String}
    (hsteps : ∀ name ∈ names, IsStep name) (hreaches : t.Reaches (p ++ names).dropLast)
    (h : t'.walk p names = .ok q) : t.walk p names = .ok q := by
  induction names generalizing p with
  | nil => exact h
  | cons name rest ih =>
    obtain ⟨-, husable, hrest⟩ := walk_cons.mp h
    have hstep := step_name (hsteps name (List.mem_cons_self ..)) p
    rw [hstep] at hrest
    refine walk_cons.mpr ⟨hreaches p ?_, husable, ?_⟩
    · rw [List.dropLast_append_of_ne_nil (List.cons_ne_nil _ _)]
      exact List.prefix_append _ _
    · rw [hstep]
      refine ih (fun n hn => hsteps n (List.mem_cons_of_mem _ hn)) ?_ hrest
      rwa [List.append_assoc]

/-- What is read by a path stays so while directories are kept and the file is not changed. -/
theorem read_keeps {t t' : FileTree} (hk : t.Keeps t') {path : String} {content : ByteArray}
    (hsame : t'.contentAt? (target path) = t.contentAt? (target path))
    (h : t.read path = .ok content) : t'.read path = .ok content := by
  obtain ⟨hplace, hcontent⟩ := read_ok.mp h
  exact read_ok.mpr ⟨place_keeps hk hplace, hsame.trans hcontent⟩

/-- A file below a path that leads somewhere can be read if it can be read in some other tree. -/
theorem read_below {t t' : FileTree} (hrooted : t.IsRooted) {a : String} {names : List String}
    (hne : names ≠ []) (hsteps : ∀ name ∈ names, IsStep name) (ha : t.place a = .ok (target a))
    {content : ByteArray} (hsame : t'.contentAt? (target (join a (ofNames names))) =
      t.contentAt? (target (join a (ofNames names))))
    (h : t'.read (join a (ofNames names)) = .ok content) :
    t.read (join a (ofNames names)) = .ok content := by
  have hrelative := names_relative hsteps
  have htarget : target (join a (ofNames names)) = target a ++ names :=
    follow_join_names hsteps [] a
  obtain ⟨hplace, hcontent⟩ := read_ok.mp h
  rw [hsame] at hcontent
  refine read_ok.mpr ⟨?_, hcontent⟩
  rw [htarget] at hcontent
  rw [place] at hplace ⊢
  split at hplace
  · rename_i husable
    rw [if_pos husable]
    obtain ⟨q, hfirst, hsecond⟩ := (walk_join_iff hrelative a).mp hplace
    obtain rfl : q = target a := walk_eq hfirst
    rw [place] at ha
    split at ha
    · rw [pieces_of_names hne hsteps] at hsecond
      refine (walk_join_iff hrelative a).mpr ⟨target a, ha, ?_⟩
      rw [pieces_of_names hne hsteps]
      exact walk_names hsteps (hrooted _ _ hcontent) hsecond
    · cases ha
  · cases hplace

/-- Where only directories were made, the file was not put into place. -/
theorem Opens.unwritten {t u : FileTree} {p : Place} {names : List String} {reached : Option Place}
    (h : Opens t u p names reached) (path : String) (content : ByteArray) :
    Wrote t u path content false :=
  ⟨h.keeps, fun q _ => h.contents q, fun q hq => .inl (h.lists q hq), fun _ => h.contents _, nofun⟩

/-- A file that is put where the directories above it lead is read back by its path. -/
theorem Opens.written {t u : FileTree} {path name : String} {above : List String} {parent : Place}
    (h : Opens t u [] above (some parent)) (hpieces : pieces path = above ++ [name])
    (hname : IsStep name) (husable : isUsableName name = true) (hshort : isUsablePath path = true)
    (hfree : u.isDirectory (parent ++ [name]) = false) (content : ByteArray) :
    Wrote t (u.put (parent ++ [name]) (.file content)) path content true := by
  obtain ⟨hreaches, hwalk⟩ := h.walks parent rfl
  have htarget : target path = parent ++ [name] := by
    rw [target, hpieces, follow_append, ← walk_eq hwalk]
    exact step_name hname _
  have hne : parent ++ [name] ≠ [] := by simp
  have hk := keeps_put (e := .file content) hne (.inl hfree)
  refine ⟨h.keeps.trans hk, fun q hq => ?_, fun q hq => ?_, nofun, fun _ => read_ok.mpr ⟨?_, ?_⟩⟩
  · rw [content_put_file hne, if_neg (by rwa [← htarget])]
    exact h.contents q
  · rcases lists_put hq with hq | ⟨rfl, -⟩
    · exact .inl (h.lists q hq)
    · exact .inr ⟨rfl, htarget.symm⟩
  · have hlast : (u.put (parent ++ [name]) (.file content)).walk parent [name] =
        .ok (parent ++ [name]) := by
      refine walk_cons.mpr ⟨hk parent (hreaches parent (List.prefix_refl _)), husable, ?_⟩
      rw [step_name hname]
      rfl
    rw [place, if_pos hshort, hpieces, walk_append (walk_keeps hk hwalk) hlast, htarget]
  · rw [content_put_file hne, htarget, if_pos rfl]

theorem write_wrote {t : FileTree} {path : String} (hpath : EndsInStep path) (content : ByteArray) :
    Wrote t (t.write path content).1 path content (t.write path content).2 := by
  obtain ⟨above, name, hpieces, hname⟩ := hpath
  have hmade := make_path t above
  rw [write, hpieces, List.dropLast_concat, List.getLast?_concat]
  generalize t.makePath above = result at hmade
  obtain ⟨u, reached⟩ := result
  cases reached with
  | none => exact hmade.unwritten path content
  | some parent =>
    dsimp only
    split
    · rename_i hcan
      simp only [Bool.and_eq_true, Bool.not_eq_true'] at hcan
      obtain ⟨⟨husable, hshort⟩, hfree⟩ := hcan
      exact hmade.written hpieces hname husable hshort hfree content
    · exact hmade.unwritten path content

/-- A file to be put into place, and whether it was. -/
structure Attempt where
  path : String
  content : ByteArray
  done : Bool

/-- What attempts to put files into place did. -/
structure WroteAll (t t' : FileTree) (attempts : List Attempt) : Prop where
  keeps : t.Keeps t'
  others : ∀ q, (∀ a ∈ attempts, q ≠ target a.path) → t'.contentAt? q = t.contentAt? q
  lists : ∀ q, t'.Lists q → t.Lists q ∨ ∃ a ∈ attempts, q = target a.path
  failed : ∀ a ∈ attempts, a.done = false →
    t'.contentAt? (target a.path) = t.contentAt? (target a.path)
  written : ∀ a ∈ attempts, a.done = true → t'.read a.path = .ok a.content

theorem WroteAll.nil (t : FileTree) : WroteAll t t [] :=
  ⟨.refl t, fun _ _ => rfl, fun _ hq => .inl hq, nofun, nofun⟩

theorem WroteAll.single {t t' : FileTree} {a : Attempt}
    (h : Wrote t t' a.path a.content a.done) : WroteAll t t' [a] := by
  refine ⟨h.keeps, fun q hq => h.others q (hq a (by simp)), fun q hq => ?_, ?_, ?_⟩
  · exact (h.lists q hq).imp_right fun ⟨_, heq⟩ => ⟨a, by simp, heq⟩
  · intro b hb
    cases List.mem_singleton.mp hb
    exact h.failed
  · intro b hb
    cases List.mem_singleton.mp hb
    exact h.written

/-- Attempts at different places do not disturb each other. -/
theorem WroteAll.append {t t' t'' : FileTree} {first second : List Attempt}
    (h : WroteAll t t' first) (h' : WroteAll t' t'' second)
    (hapart : ∀ a ∈ first, ∀ b ∈ second, target a.path ≠ target b.path) :
    WroteAll t t'' (first ++ second) := by
  have hkept : ∀ a ∈ first, t''.contentAt? (target a.path) = t'.contentAt? (target a.path) :=
    fun a ha => h'.others _ fun b hb => hapart a ha b hb
  refine ⟨h.keeps.trans h'.keeps, ?_, ?_, ?_, ?_⟩
  · intro q hq
    rw [h'.others q fun b hb => hq b (List.mem_append_right _ hb)]
    exact h.others q fun a ha => hq a (List.mem_append_left _ ha)
  · intro q hq
    rcases h'.lists q hq with hq | ⟨b, hb, heq⟩
    · exact (h.lists q hq).imp_right fun ⟨a, ha, heq⟩ => ⟨a, List.mem_append_left _ ha, heq⟩
    · exact .inr ⟨b, List.mem_append_right _ hb, heq⟩
  · intro a ha hdone
    rcases List.mem_append.mp ha with ha | ha
    · rw [hkept a ha]
      exact h.failed a ha hdone
    · rw [h'.failed a ha hdone]
      exact h.others _ fun b hb => (hapart b hb a ha).symm
  · intro a ha hdone
    rcases List.mem_append.mp ha with ha | ha
    · exact read_keeps h'.keeps (hkept a ha) (h.written a ha hdone)
    · exact h'.written a ha hdone

/-- The files below a directory are those that stand below it. -/
theorem mem_files_below {t : FileTree} {p names : Place} :
    names ∈ t.filesBelow p ↔ names ≠ [] ∧ t.Lists (p ++ names) := by
  simp only [filesBelow, below, List.mem_filterMap, Prod.exists, Lists]
  constructor
  · rintro ⟨q, e, ⟨place, _, hmem, hbelow⟩, hfile⟩
    split at hbelow
    · rename_i hplace
      obtain ⟨habove, hne⟩ := hplace
      obtain ⟨names, rfl⟩ := List.isPrefixOf_iff_prefix.mp habove
      cases hbelow
      rw [List.drop_left] at hfile
      cases e with
      | directory => cases hfile
      | file content =>
        cases hfile
        exact ⟨fun hnil => hne (by rw [hnil, List.append_nil]), content, hmem⟩
    · cases hbelow
  · rintro ⟨hne, content, hmem⟩
    have hbelow : p.isPrefixOf (p ++ names) = true ∧ p ++ names ≠ p :=
      ⟨List.isPrefixOf_iff_prefix.mpr (List.prefix_append p names), by simpa using hne⟩
    refine ⟨names, .file content, ⟨p ++ names, .file content, hmem, ?_⟩, rfl⟩
    rw [if_pos hbelow, List.drop_left]

/-- A file that holds something stands there. -/
theorem lists_of_content {t : FileTree} {p : Place} {content : ByteArray}
    (h : t.contentAt? p = some content) : t.Lists p := by
  rw [content_iff, find?] at h
  split at h
  · cases h
  · obtain ⟨before, after, hentries, -⟩ := List.lookup_eq_some_iff.mp h
    exact ⟨content, by simp [hentries]⟩

end DocForms.FileTree
