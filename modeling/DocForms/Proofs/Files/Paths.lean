import DocForms.FileTree
import DocForms.Proofs.Text.Fields

namespace DocForms.Text

/-- A text is cut at each occurrence of a separator, wherever it is put together. -/
theorem split_on_sep (sep : Char) (s t : List Char) :
    splitOn sep (s ++ sep :: t) = splitOn sep s ++ splitOn sep t := by
  induction s with
  | nil =>
    rw [List.nil_append, splitOn.eq_2, if_pos rfl, splitOn.eq_1]
    rfl
  | cons c cs ih =>
    rw [List.cons_append, splitOn, splitOn, ih]
    split
    · rfl
    · cases h : splitOn sep cs with
      | nil => exact absurd h (split_on_ne_nil sep cs)
      | cons field fields => rfl

/-- What stands after a separator is part of the text. -/
theorem mem_after_separator {sep c : Char} {s before after : List Char}
    (h : splitOnce sep s = some (before, after)) (hc : c ∈ after) : c ∈ s := by
  induction s generalizing before with
  | nil => cases h
  | cons d ds ih =>
    rw [splitOnce] at h
    split at h
    · cases h
      exact List.mem_cons_of_mem _ hc
    · obtain ⟨⟨b, a⟩, hds, hpair⟩ := Option.map_eq_some_iff.mp h
      cases hpair
      exact List.mem_cons_of_mem _ (ih hds)

theorem mem_split_on {sep : Char} {s piece : List Char} (h : piece ∈ splitOn sep s) :
    sep ∉ piece := by
  induction s generalizing piece with
  | nil =>
    rw [splitOn, List.mem_singleton] at h
    simp [h]
  | cons c cs ih =>
    rw [splitOn] at h
    split at h
    · rcases List.mem_cons.mp h with rfl | h
      · exact List.not_mem_nil
      · exact ih h
    · rename_i hne
      cases hs : splitOn sep cs with
      | nil =>
        rw [hs, consFirst, List.mem_singleton] at h
        simp [h, Ne.symm hne]
      | cons field fields =>
        rw [hs] at h ih
        rcases List.mem_cons.mp h with rfl | h
        · have := ih (List.mem_cons_self ..)
          simp [Ne.symm hne, this]
        · exact ih (List.mem_cons_of_mem _ h)

end DocForms.Text

namespace DocForms.Path
open Text

/-- A piece of a path that leads one step down. -/
structure IsStep (name : String) : Prop where
  not_empty : name ≠ ""
  not_current : name ≠ "."
  not_parent : name ≠ ".."
  no_slash : '/' ∉ name.toList

/-- The place that a piece leads to from a place. -/
def step (p : Place) (piece : String) : Place :=
  if piece = "" ∨ piece = "." then p else if piece = ".." then p.dropLast else p ++ [piece]

/-- The place that pieces lead to from a place, if all that they lead through is there. -/
def follow (p : Place) (pieces : List String) : Place :=
  pieces.foldl step p

/-- The place that a path leads to. -/
def target (path : String) : Place :=
  follow [] (pieces path)

theorem follow_append (p : Place) (first second : List String) :
    follow p (first ++ second) = follow (follow p first) second :=
  List.foldl_append

theorem step_name {name : String} (h : IsStep name) (p : Place) : step p name = p ++ [name] := by
  have hnot : ¬(name = "" ∨ name = ".") := fun hor => hor.elim h.not_empty h.not_current
  rw [step, if_neg hnot, if_neg h.not_parent]

theorem follow_steps {names : List String} (h : ∀ name ∈ names, IsStep name) (p : Place) :
    follow p names = p ++ names := by
  induction names generalizing p with
  | nil => exact (List.append_nil p).symm
  | cons name rest ih =>
    rw [follow, List.foldl_cons, step_name (h name (by simp)), ← follow,
      ih fun n hn => h n (List.mem_cons_of_mem _ hn), List.append_assoc, List.singleton_append]

theorem pieces_slash (a b : String) : pieces (a ++ "/" ++ b) = pieces a ++ pieces b := by
  have htext : (a ++ "/" ++ b).toList = a.toList ++ '/' :: b.toList := by simp
  rw [pieces, htext, split_on_sep, List.map_append, pieces, pieces]

theorem pieces_empty : pieces "" = [""] := rfl

theorem pieces_ne_nil (path : String) : pieces path ≠ [] :=
  fun h => split_on_ne_nil '/' _ (List.map_eq_nil_iff.mp h)

theorem follow_nothing (p : Place) : follow p [""] = p := rfl

/-- A text that ends with a slash leads where it leads without it. -/
theorem cut_last_slash {a : String} (h : a.toList.getLast? = some '/') :
    ∃ b, a = b ++ "/" ∧ pieces a = pieces b ++ [""] := by
  obtain ⟨cs, hcs⟩ := List.getLast?_eq_some_iff.mp h
  have ha : a = String.ofList cs ++ "/" := by
    rw [← String.toList_inj, hcs]
    simp
  refine ⟨String.ofList cs, ha, ?_⟩
  have := pieces_slash (String.ofList cs) ""
  rwa [String.append_empty, ← ha] at this

theorem join_absolute {b : String} (h : isAbsolute b = true) (a : String) : join a b = b := by
  rw [join, h, Bool.true_or, if_pos rfl]

theorem join_empty (b : String) : join "" b = b := by
  rw [join, show "".isEmpty = true from rfl, Bool.or_true, if_pos rfl]

theorem join_text {a b : String} (hb : isAbsolute b = false) (ha : a ≠ "") :
    join a b = if a.toList.getLast? = some '/' then a ++ b else a ++ "/" ++ b := by
  have hempty : a.isEmpty = false := by
    rw [Bool.eq_false_iff, Ne, String.isEmpty_iff]
    exact ha
  rw [join, hb, hempty]
  simp

/-- A joined path begins with its first part. -/
theorem join_extends {b : String} (hb : isAbsolute b = false) (a : String) :
    ∃ ending, join a b = a ++ ending := by
  by_cases ha : a = ""
  · exact ⟨b, by rw [ha, join_empty, String.empty_append]⟩
  · rw [join_text hb ha]
    split
    · exact ⟨b, rfl⟩
    · exact ⟨"/" ++ b, String.append_assoc⟩

/-- A joined path leads where its second part leads from where its first part does. -/
theorem follow_join {b : String} (hb : isAbsolute b = false) (p : Place) (a : String) :
    follow p (pieces (join a b)) = follow (follow p (pieces a)) (pieces b) := by
  rw [join, hb, Bool.false_or]
  split
  · rename_i hempty
    rw [String.isEmpty_iff.mp hempty, pieces_empty, follow_nothing]
  · split
    · rename_i hslash
      obtain ⟨c, rfl, hpieces⟩ := cut_last_slash (beq_iff_eq.mp hslash)
      rw [pieces_slash, hpieces, follow_append, follow_append, follow_nothing]
    · rw [pieces_slash, follow_append]

theorem target_join {b : String} (hb : isAbsolute b = false) (a : String) :
    target (join a b) = follow (target a) (pieces b) :=
  follow_join hb [] a

theorem absolute_join (a b : String) : isAbsolute (join a b) = (isAbsolute a || isAbsolute b) := by
  cases hb : isAbsolute b with
  | true => rw [join_absolute hb, hb, Bool.or_true]
  | false =>
    rw [join, hb, Bool.false_or, Bool.or_false]
    split
    · rename_i hempty
      rw [hb, String.isEmpty_iff.mp hempty]
      rfl
    · rename_i hne
      have hcons : a.toList ≠ [] := by
        intro hnil
        exact hne (String.isEmpty_iff.mpr (String.toList_eq_nil_iff.mp hnil))
      split <;> simp [isAbsolute, List.head?_append, List.head?_eq_some_head hcons]

/-- Relative paths can be joined in any order. -/
theorem join_assoc {b : String} (hb : isAbsolute b = false) (r a : String) :
    join r (join a b) = join (join r a) b := by
  cases ha : isAbsolute a with
  | true =>
    rw [join_absolute ha, join_absolute]
    rw [absolute_join, ha, Bool.true_or]
  | false =>
    have hab : isAbsolute (join a b) = false := by rw [absolute_join, ha, hb, Bool.or_false]
    by_cases hr : r = ""
    · rw [hr, join_empty, join_empty]
    · by_cases hnil : a = ""
      · subst hnil
        rw [join_empty, join_text ha hr, String.append_empty, String.append_empty]
        split
        · rfl
        · rename_i hslash
          rw [join_text hb hr, if_neg hslash, join_text hb (by simp), if_pos (by simp)]
      · have hlast (t : String) : (t ++ a).toList.getLast? = a.toList.getLast? := by
          obtain ⟨c, hc⟩ : ∃ c, a.toList.getLast? = some c :=
            ⟨_, List.getLast?_eq_some_getLast fun h => hnil (String.toList_eq_nil_iff.mp h)⟩
          rw [String.toList_append, List.getLast?_append, hc, Option.some_or]
        have hra : join r a ≠ "" := by
          rw [join_text ha hr]
          split <;> simp [hr]
        have hend : (join r a).toList.getLast? = a.toList.getLast? := by
          rw [join_text ha hr]
          split <;> exact hlast _
        rw [join_text hab hr, join_text hb hnil, join_text hb hra, hend, join_text ha hr]
        split <;> split <;> simp only [String.append_assoc]

/-- Names joined with slashes are the pieces of the path that they make. -/
theorem pieces_of_slashless {names : List String} (hne : names ≠ [])
    (h : ∀ name ∈ names, '/' ∉ name.toList) : pieces (ofNames names) = names := by
  have hfields : splitOn '/' (Text.join ['/'] (names.map String.toList)) = names.map String.toList := by
    apply split_on_join (by simpa using hne)
    intro field hfield
    obtain ⟨name, hname, rfl⟩ := List.mem_map.mp hfield
    exact h name hname
  have htext : (ofNames names).toList = Text.join ['/'] (names.map String.toList) :=
    String.toList_intercalate
  rw [pieces, htext, hfields, List.map_map]
  simp [Function.comp_def]

theorem pieces_of_names {names : List String} (hne : names ≠ [])
    (h : ∀ name ∈ names, IsStep name) : pieces (ofNames names) = names :=
  pieces_of_slashless hne fun name hname => (h name hname).no_slash

/-- What is added to the last name is added to the path. -/
theorem of_names_extend (above : List String) (name ending : String) :
    ofNames (above ++ [name ++ ending]) = ofNames (above ++ [name]) ++ ending := by
  induction above with
  | nil => simp [ofNames]
  | cons first rest ih =>
    cases rest with
    | nil => simp [ofNames, String.append_assoc]
    | cons second rest =>
      simp only [ofNames, List.cons_append, String.intercalate_cons_cons] at ih ⊢
      rw [ih]
      simp only [String.append_assoc]

theorem names_relative {names : List String} (h : ∀ name ∈ names, IsStep name) :
    isAbsolute (ofNames names) = false := by
  cases names with
  | nil => rfl
  | cons name rest =>
    have hname := h name (by simp)
    have hcons : name.toList ≠ [] := fun hnil => hname.not_empty (String.toList_eq_nil_iff.mp hnil)
    have htext : (ofNames (name :: rest)).toList.head? = name.toList.head? := by
      rw [ofNames, String.toList_intercalate]
      cases rest <;> simp [List.intercalate, List.head?_append, List.head?_eq_some_head hcons]
    rw [isAbsolute, htext]
    obtain ⟨c, cs, hcs⟩ := List.exists_cons_of_ne_nil hcons
    have hslash : c ≠ '/' := by
      rintro rfl
      exact hname.no_slash (by simp [hcs])
    simp [hcs, hslash]

/-- Names lead one step down each from where a path leads. -/
theorem follow_join_names {names : List String} (h : ∀ name ∈ names, IsStep name) (p : Place)
    (a : String) : follow p (pieces (join a (ofNames names))) = follow p (pieces a) ++ names := by
  rw [follow_join (names_relative h)]
  cases names with
  | nil => exact (List.append_nil _).symm
  | cons name rest => rw [pieces_of_names (by simp) h, follow_steps h]

theorem follow_join_name {name : String} (h : IsStep name) (p : Place) (a : String) :
    follow p (pieces (join a name)) = follow p (pieces a) ++ [name] :=
  follow_join_names (List.forall_mem_singleton.mpr h) p a

/-- A path whose last piece is a name. -/
def EndsInStep (path : String) : Prop :=
  ∃ above name, pieces path = above ++ [name] ∧ IsStep name

/-- A joined path ends as its second part does. -/
theorem EndsInStep.join {b : String} (h : EndsInStep b) (a : String) : EndsInStep (join a b) := by
  obtain ⟨above, name, hpieces, hname⟩ := h
  suffices hfront : ∃ front, pieces (Path.join a b) = front ++ pieces b by
    obtain ⟨front, hfront⟩ := hfront
    exact ⟨front ++ above, name, by rw [hfront, hpieces, List.append_assoc], hname⟩
  rw [Path.join]
  split
  · exact ⟨[], rfl⟩
  · split
    · rename_i hslash
      obtain ⟨c, rfl, -⟩ := cut_last_slash (beq_iff_eq.mp hslash)
      exact ⟨pieces c, pieces_slash c b⟩
    · exact ⟨pieces a, pieces_slash a b⟩

theorem ends_in_step {name : String} (h : IsStep name) : EndsInStep name :=
  ⟨[], name, pieces_of_names (List.cons_ne_nil name []) (List.forall_mem_singleton.mpr h), h⟩

theorem ends_of_names {names : List String} (hne : names ≠ []) (h : ∀ name ∈ names, IsStep name) :
    EndsInStep (ofNames names) :=
  ⟨names.dropLast, names.getLast hne,
    (pieces_of_names hne h).trans (List.dropLast_concat_getLast hne).symm,
    h _ (List.getLast_mem hne)⟩

theorem step_relative {name : String} (h : IsStep name) : isAbsolute name = false :=
  names_relative (List.forall_mem_singleton.mpr h)

/-- A name is put before others by joining. -/
theorem join_name {name : String} {names : List String} (hname : IsStep name) (hne : names ≠ [])
    (h : ∀ name ∈ names, IsStep name) : join name (ofNames names) = ofNames (name :: names) := by
  have hlast : name.toList.getLast? ≠ some '/' := fun hslash =>
    hname.no_slash (List.mem_of_getLast? hslash)
  obtain ⟨first, rest, rfl⟩ := List.exists_cons_of_ne_nil hne
  rw [join_text (names_relative h) hname.not_empty, if_neg hlast, ofNames, ofNames,
    String.intercalate_cons_cons]

theorem of_names_inj {names others : List String} (hne : names ≠ []) (hne' : others ≠ [])
    (h : ∀ name ∈ names, IsStep name) (h' : ∀ name ∈ others, IsStep name)
    (heq : ofNames names = ofNames others) : names = others := by
  rw [← pieces_of_names hne h, heq, pieces_of_names hne' h']

/-- A step with an ending that has no slash and does not end in a point is a step. -/
theorem IsStep.extend {name ending : String} {c : Char} (h : '/' ∉ name.toList)
    (hslash : '/' ∉ ending.toList) (hlast : ending.toList.getLast? = some c) (hc : c ≠ '.') :
    IsStep (name ++ ending) := by
  have hend : (name ++ ending).toList.getLast? = some c := by
    rw [String.toList_append, List.getLast?_append, hlast, Option.some_or]
  refine ⟨?_, ?_, ?_, ?_⟩
  · intro he
    simp [he] at hend
  · intro he
    rw [he] at hend
    exact hc (Option.some.inj hend).symm
  · intro he
    rw [he] at hend
    exact hc (Option.some.inj hend).symm
  · rw [String.toList_append, List.mem_append]
    exact fun hm => hm.elim h hslash

/-- The characters of a stem are those of the name. -/
theorem mem_stem {c : Char} {name : String} (h : c ∈ (stem name).toList) : c ∈ name.toList := by
  rw [stem, splitName] at h
  split at h
  · rename_i after before hsplit
    split at h
    · exact h
    · have hbefore : c ∈ before := by simpa using h
      exact List.mem_reverse.mp (mem_after_separator hsplit hbefore)
  · exact h

theorem step_of_component {piece name : String} (hslash : '/' ∉ piece.toList)
    (h : Component.ofPiece? piece = some (.normal name)) : IsStep name := by
  rw [Component.ofPiece?] at h
  split at h
  · cases h
  · rename_i hnot
    split at h
    · cases h
    · rename_i hparent
      cases h
      exact ⟨fun he => hnot (.inl he), fun he => hnot (.inr he), hparent, hslash⟩

/-- The names among the components of a path are steps. -/
theorem step_of_mem_components {path name : String} (h : Component.normal name ∈ components path) :
    IsStep name := by
  have hmem : Component.normal name ∈ (pieces path).filterMap Component.ofPiece? := by
    rw [components] at h
    split at h
    · simpa using h
    · split at h
      · simpa using h
      · exact h
  obtain ⟨piece, hpiece, hname⟩ := List.mem_filterMap.mp hmem
  obtain ⟨cs, hcs, rfl⟩ := List.mem_map.mp hpiece
  exact step_of_component (by simpa using Text.mem_split_on hcs) hname

end DocForms.Path
