import DocForms.Proofs.Files.Trees

namespace DocForms.Path
open Text

/-- The pieces of a path that matter: empty ones and single points lead nowhere. -/
def parts (path : String) : List String :=
  (pieces path).filter fun p => p ≠ "" ∧ p ≠ "."

/-- A piece that matters, as a component. -/
def Component.ofPart (part : String) : Component :=
  if part = ".." then .parent else .normal part

/-- What a path begins with: the root, or a point that starts a relative path. -/
def lead (path : String) : List Component :=
  if isAbsolute path then [.root] else if (pieces path).head? = some "." then [.current] else []

theorem matters_iff {piece : String} :
    decide (piece ≠ "" ∧ piece ≠ ".") = true ↔ ¬(piece = "" ∨ piece = ".") := by
  rw [decide_eq_true_iff, not_or]

theorem of_piece_eq (piece : String) : Component.ofPiece? piece =
    if decide (piece ≠ "" ∧ piece ≠ ".") then some (Component.ofPart piece) else none := by
  rw [Component.ofPiece?, Component.ofPart]
  by_cases h : piece = "" ∨ piece = "."
  · rw [if_pos h, if_neg fun hm => matters_iff.mp hm h]
  · rw [if_neg h, if_pos (matters_iff.mpr h)]
    split <;> rfl

theorem components_eq (path : String) :
    components path = lead path ++ (parts path).map Component.ofPart := by
  have hparts : (pieces path).filterMap Component.ofPiece? = (parts path).map Component.ofPart := by
    rw [parts, ← List.filterMap_eq_map, List.filterMap_filter]
    exact congrArg (List.filterMap · _) (funext of_piece_eq)
  rw [components, hparts, lead]
  split
  · rfl
  · split <;> rfl

/-- The part of a path that a component comes from. -/
def Component.toPart? : Component → Option String
  | .parent => some ".."
  | .normal name => some name
  | .root | .current => none

theorem to_part_of_part (part : String) : (Component.ofPart part).toPart? = some part := by
  rw [Component.ofPart]
  split
  · rename_i h
    rw [h]
    rfl
  · rfl

theorem of_part_inj {a b : String} (h : Component.ofPart a = Component.ofPart b) : a = b := by
  rw [← Option.some.injEq, ← to_part_of_part, h, to_part_of_part]

/-- The components of a path tell its parts. -/
theorem parts_eq (path : String) : parts path = (components path).filterMap Component.toPart? := by
  have hlead : (lead path).filterMap Component.toPart? = [] := by
    rw [lead]
    split
    · rfl
    · split <;> rfl
  have hparts : Component.toPart? ∘ Component.ofPart = some := funext to_part_of_part
  rw [components_eq, List.filterMap_append, hlead, List.nil_append, List.filterMap_map, hparts,
    List.filterMap_some]

theorem parts_of_normal (names : List String) :
    (names.map Component.normal).filterMap Component.toPart? = names := by
  have hnames : Component.toPart? ∘ Component.normal = some := rfl
  rw [List.filterMap_map, hnames, List.filterMap_some]

theorem components_absolute {path : String} (h : isAbsolute path = true) :
    components path = .root :: (parts path).map Component.ofPart := by
  rw [components_eq, lead, if_pos h]
  rfl

theorem root_mem_components {path : String} (h : Component.root ∈ components path) :
    isAbsolute path = true := by
  rw [← Bool.not_eq_false]
  intro hrelative
  rw [components_eq, lead, hrelative, if_neg Bool.false_ne_true] at h
  rcases List.mem_append.mp h with h | h
  · split at h
    · cases List.mem_singleton.mp h
    · cases h
  · obtain ⟨part, -, hpart⟩ := List.mem_map.mp h
    rw [Component.ofPart] at hpart
    split at hpart <;> cases hpart

/-- A part leads one step down, unless it leads up. -/
theorem step_of_part {part path : String} (h : part ∈ parts path) (hup : part ≠ "..") :
    IsStep part := by
  obtain ⟨hpiece, hmatters⟩ := List.mem_filter.mp h
  obtain ⟨hempty, hpoint⟩ := of_decide_eq_true hmatters
  obtain ⟨cs, hcs, rfl⟩ := List.mem_map.mp hpiece
  exact ⟨hempty, hpoint, hup, by simpa using Text.mem_split_on hcs⟩

theorem parts_append (a b : String) : parts (a ++ "/" ++ b) = parts a ++ parts b := by
  rw [parts, pieces_slash, List.filter_append, parts, parts]

theorem parts_empty : parts "" = [] := rfl

theorem parts_join {b : String} (hb : isAbsolute b = false) (a : String) :
    parts (join a b) = parts a ++ parts b := by
  by_cases ha : a = ""
  · rw [ha, join_empty, parts_empty, List.nil_append]
  · rw [join_text hb ha]
    split
    · rename_i hslash
      obtain ⟨c, rfl, -⟩ := cut_last_slash hslash
      have hc := parts_append c ""
      rw [String.append_empty, parts_empty, List.append_nil] at hc
      rw [parts_append, hc]
    · exact parts_append a b

/-- A joined path begins as its first part does. -/
theorem lead_join {a b : String} (hb : isAbsolute b = false) (ha : a ≠ "") :
    lead (join a b) = lead a := by
  have hhead : (pieces (join a b)).head? = (pieces a).head? := by
    have hfirst (c d : String) : (pieces c ++ pieces d).head? = (pieces c).head? := by
      rw [List.head?_append, List.head?_eq_some_head (pieces_ne_nil c), Option.some_or]
    rw [join_text hb ha]
    split
    · rename_i hslash
      obtain ⟨c, rfl, -⟩ := cut_last_slash hslash
      have hc := pieces_slash c ""
      rw [String.append_empty] at hc
      rw [pieces_slash, hc, hfirst, hfirst]
    · rw [pieces_slash, hfirst]
  rw [lead, lead, hhead, absolute_join, hb, Bool.or_false]

theorem relative_of_lead {path : String} (h : lead path = []) : isAbsolute path = false := by
  rw [lead] at h
  split at h
  · cases h
  · rename_i hrelative
    exact Bool.eq_false_iff.mpr hrelative

/-- A path that begins with a piece that matters adds its components to those of another. -/
theorem components_join {b : String} (hb : lead b = []) (a : String) :
    components (join a b) = components a ++ components b := by
  have hrelative := relative_of_lead hb
  rw [components_eq b, hb, List.nil_append]
  by_cases ha : a = ""
  · rw [ha, join_empty, components_eq, hb]
    rfl
  · rw [components_eq, components_eq a, lead_join hrelative ha, parts_join hrelative, List.map_append,
      List.append_assoc]

theorem parts_of_names {names : List String} (h : ∀ name ∈ names, IsStep name) :
    parts (ofNames names) = names := by
  cases names with
  | nil => rfl
  | cons name rest =>
    rw [parts, pieces_of_names (List.cons_ne_nil _ _) h, List.filter_eq_self]
    intro n hn
    exact decide_eq_true ⟨(h n hn).not_empty, (h n hn).not_current⟩

theorem lead_of_names {names : List String} (h : ∀ name ∈ names, IsStep name) :
    lead (ofNames names) = [] := by
  rw [lead, names_relative h, if_neg Bool.false_ne_true]
  cases names with
  | nil => rfl
  | cons name rest =>
    rw [pieces_of_names (List.cons_ne_nil _ _) h]
    refine if_neg fun hpoint => ?_
    exact (h name (List.mem_cons_self ..)).not_current (Option.some.inj hpoint)

/-- Names are the components of the path that they make. -/
theorem components_of_names {names : List String} (h : ∀ name ∈ names, IsStep name) :
    components (ofNames names) = names.map Component.normal := by
  rw [components_eq, lead_of_names h, parts_of_names h, List.nil_append]
  exact List.map_congr_left fun name hn => if_neg (h name hn).not_parent

theorem components_join_names {names : List String} (h : ∀ name ∈ names, IsStep name) (a : String) :
    components (join a (ofNames names)) = components a ++ names.map Component.normal := by
  rw [components_join (lead_of_names h), components_of_names h]

/-- A path that has names alone for components begins with none other. -/
theorem lead_of_components {path : String} {names : List String}
    (h : components path = names.map .normal) : lead path = [] := by
  have hsteps : ∀ name ∈ names, IsStep name := fun name hn => by
    have hmem : Component.normal name ∈ components path := h ▸ List.mem_map_of_mem hn
    exact step_of_mem_components hmem
  have hparts : parts path = names := by rw [parts_eq, h, parts_of_normal]
  have hnormal : names.map Component.ofPart = names.map Component.normal :=
    List.map_congr_left fun name hn => if_neg (hsteps name hn).not_parent
  rwa [components_eq, hparts, hnormal, List.append_left_eq_self] at h

theorem join_components {path : String} {names : List String}
    (h : components path = names.map .normal) (a : String) :
    components (join a path) = components a ++ names.map .normal := by
  rw [components_join (lead_of_components h), h]

theorem strip_base_iff {base path rest : List Component} :
    stripBase? base path = some rest ↔ path = base ++ rest := by
  rw [stripBase?]
  constructor
  · intro h
    split at h
    · rename_i hprefix
      obtain ⟨ending, rfl⟩ := List.isPrefixOf_iff_prefix.mp hprefix
      rw [List.drop_left] at h
      rw [Option.some.inj h]
    · cases h
  · rintro rfl
    rw [if_pos (List.isPrefixOf_iff_prefix.mpr (List.prefix_append _ _)), List.drop_left]

/-- Where a path leads depends on the pieces that matter alone. -/
theorem follow_parts (p : Place) (path : String) : follow p (pieces path) = follow p (parts path) := by
  rw [parts, follow, follow, List.foldl_filter]
  congr 1
  funext p piece
  by_cases h : piece = "" ∨ piece = "."
  · rw [step, if_pos h, if_neg fun hm => matters_iff.mp hm h]
  · rw [if_pos (matters_iff.mpr h)]

end DocForms.Path
