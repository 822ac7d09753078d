import DocForms.Proofs.Json.Stability
import Mathlib.Data.List.Forall2

namespace DocForms.Json

mutual
/-- The leaves of a value, each under all the keys on the way to it. -/
def pathsUnder (path : List String) : Json → List (List String × Json)
  | .object members => pathLeaves path members
  | j => [(path, j)]

/-- The leaves of an object in order, nested objects entered. -/
def pathLeaves (path : List String) : Members → List (List String × Json)
  | [] => []
  | (key, j) :: ms => pathsUnder (path ++ [key]) j ++ pathLeaves path ms
end

/-- The keys of a path joined with points. -/
def joined (path : List String) : String :=
  ".".intercalate path

/-- The name that a path leads to. As long as a name is empty nothing tells it from no name at all, so
that empty keys at the start leave no trace. -/
def pathName (path : List String) : String :=
  joined (path.dropWhile String.isEmpty)

/-- An array of objects, one at least. -/
def isTable : Json → Bool
  | .array items => !items.isEmpty && items.all isObject
  | _ => false

theorem joined_append {path : List String} (h : path ≠ []) (key : String) :
    joined (path ++ [key]) = joined path ++ "." ++ key := by
  rw [joined, String.intercalate_append_of_ne_nil h (List.cons_ne_nil _ _), String.intercalate_singleton,
    joined]

theorem joined_eq_empty {key : String} {path : List String} (h : joined (key :: path) = "") :
    key = "" := by
  cases path with
  | nil => simpa [joined] using h
  | cons second rest => simp [joined, String.intercalate_cons_cons] at h

/-- Where empty keys were dropped, a name that is left is not empty. -/
theorem path_name_empty {path : List String} :
    pathName path = "" ↔ path.dropWhile String.isEmpty = [] := by
  rw [pathName]
  cases hdrop : path.dropWhile String.isEmpty with
  | nil => simp [joined]
  | cons key rest =>
    have hkey : key.isEmpty = false := by
      have hhead := List.head?_dropWhile_not String.isEmpty path
      rw [hdrop] at hhead
      simpa using hhead
    simp only [reduceCtorEq, iff_false]
    intro hjoined
    rw [joined_eq_empty hjoined] at hkey
    cases hkey

/-- The names of members are those of their paths. -/
theorem member_name_path (path : List String) (key : String) :
    memberName (pathName path) key = pathName (path ++ [key]) := by
  rw [memberName, pathName.eq_1 (path ++ [key]), List.dropWhile_append]
  by_cases hempty : path.dropWhile String.isEmpty = []
  · rw [if_pos (by simpa using path_name_empty.mpr hempty), if_pos (by simpa using hempty)]
    cases hkey : key.isEmpty with
    | true => simp [String.isEmpty_iff.mp hkey, joined]
    | false => simp [hkey, joined]
  · rw [if_neg (by simpa using path_name_empty.not.mpr hempty), if_neg (by simpa using hempty),
      joined_append hempty, pathName]
    rfl

mutual
theorem leaves_under_path (path : List String) : (j : Json) →
    leavesUnder (pathName path) j = (pathsUnder path j).map fun leaf => (pathName leaf.1, leaf.2)
  | .object members => by rw [leavesUnder, pathsUnder, leaves_path]
  | .null | .bool _ | .number _ | .string _ | .array _ => by
    rw [leaves_under_leaf rfl, pathsUnder, List.map_singleton]
    exact nofun

/-- Leaves have the names of their paths. -/
theorem leaves_path (path : List String) : (members : Members) →
    leaves (pathName path) members =
      (pathLeaves path members).map fun leaf => (pathName leaf.1, leaf.2)
  | [] => rfl
  | (key, j) :: ms => by
    rw [leaves, pathLeaves, List.map_append, member_name_path, leaves_under_path, leaves_path]
end

theorem objects_of_members {items : List Json} {rows : List Members}
    (h : items.mapM members? = some rows) : items = rows.map .object := by
  induction items generalizing rows with
  | nil =>
    cases h
    rfl
  | cons item items ih =>
    rw [List.mapM_cons] at h
    obtain ⟨row, hrow, hrest⟩ := Option.bind_eq_some_iff.mp h
    obtain ⟨rest, hitems, hrows⟩ := Option.bind_eq_some_iff.mp hrest
    cases hrows
    cases item with
    | object members =>
      cases hrow
      rw [List.map_cons, ← ih hitems]
    | _ => cases hrow

theorem rows_of_all {items : List Json} (h : ∀ j ∈ items, j.isObject = true) :
    ∃ rows : List Members, items = rows.map .object := by
  induction items with
  | nil => exact ⟨[], rfl⟩
  | cons item items ih =>
    obtain ⟨rows, rfl⟩ := ih fun j hj => h j (List.mem_cons_of_mem _ hj)
    have hitem := h item (by simp)
    cases item with
    | object members => exact ⟨members :: rows, rfl⟩
    | _ => cases hitem

/-- A leaf with rows is an array of these. -/
theorem array_of_rows {j : Json} {rows : List Members} (h : rowsOf? j = some rows) :
    j = .array (rows.map .object) := by
  cases j with
  | array items =>
    rw [rowsOf?, sectionRows?] at h
    split at h
    · cases h
    · rw [objects_of_members h]
  | _ => cases h

/-- Tables are the leaves with rows. -/
theorem is_table_eq (j : Json) : j.isTable = (rowsOf? j).isSome := by
  cases hrows : rowsOf? j with
  | some rows =>
    rw [array_of_rows hrows, isTable]
    simp [rows_ne_nil hrows, isObject]
  | none =>
    rw [Option.isSome_none, Bool.eq_false_iff]
    intro htable
    cases j with
    | array items =>
      simp only [isTable, Bool.and_eq_true, Bool.not_eq_true', List.all_eq_true] at htable
      obtain ⟨rows, rfl⟩ := rows_of_all htable.2
      rw [rows_of_objects (by simpa using htable.1)] at hrows
      cases hrows
    | _ => cases htable

theorem value_of_scalar {location : String} {j : Json} {v : Value}
    (h : readScalar location j = .ok v) : j.toValue? = some v := by
  cases j with
  | bool b | number n | string s =>
    cases h
    rfl
  | null | array _ | object _ => cases h

/-- Items have values if each of them does. -/
theorem values_at {items : List Json} {vs : List Value} (hlength : items.length = vs.length)
    (h : ∀ (i : Nat) j v, items[i]? = some j → vs[i]? = some v → j.toValue? = some v) :
    toValues? items = some vs := by
  induction items generalizing vs with
  | nil =>
    rw [List.length_eq_zero_iff.mp hlength.symm]
    rfl
  | cons item items ih =>
    cases vs with
    | nil => cases hlength
    | cons v vs =>
      rw [toValues?, h 0 item v rfl rfl, ih (Nat.succ.inj hlength) fun i => h (i + 1)]
      rfl

/-- What is read from a leaf that is no table is its value. -/
theorem value_of_flat {name : String} {j : Json} {v : Value} (h : readFlat readScalar name j = .ok v) :
    j.toValue? = some v := by
  cases j with
  | array items =>
    obtain ⟨vs, hvs, hv⟩ := bind_eq_ok.mp h
    obtain ⟨hlength, hitems⟩ := mapM_zip_idx_eq_ok.mp hvs
    cases hv
    rw [toValue?, values_at hlength fun i j v hj hv => value_of_scalar (hitems i j v hj hv),
      Option.map_some]
  | _ => exact @value_of_scalar name _ _ h

/-- A field has the name and the value of its leaf. -/
def IsField (leaf : List String × Json) (field : String × Value) : Prop :=
  field.1 = pathName leaf.1 ∧ leaf.2.toValue? = some field.2

/-- A section has the name of its leaf and was read from the rows of it. -/
def IsSection (leaf : List String × Json) (s : Section) : Prop :=
  s.id = pathName leaf.1 ∧ ∃ rows, leaf.2 = .array (rows.map .object) ∧ readSection s.id rows = .ok s

section Named
variable {leaves : List (List String × Json)} {es : List (String × Value)} {ss : List Section}

/-- What leaves give is named by their paths. -/
theorem Takes.named (h : Takes (leaves.map fun leaf => (pathName leaf.1, leaf.2)) es ss) :
    List.Forall₂ IsField (leaves.filter fun leaf => !leaf.2.isTable) es ∧
      List.Forall₂ IsSection (leaves.filter fun leaf => leaf.2.isTable) ss := by
  generalize hls : leaves.map (fun leaf => (pathName leaf.1, leaf.2)) = ls at h
  induction h generalizing leaves with
  | nil =>
    rw [List.map_eq_nil_iff.mp hls]
    exact ⟨.nil, .nil⟩
  | field hrows hread _ ih =>
    obtain ⟨leaf, rest, rfl, hleaf, hrest⟩ := List.map_eq_cons_iff.mp hls
    cases hleaf
    have hkind : leaf.2.isTable = false := by rw [is_table_eq, hrows, Option.isSome_none]
    obtain ⟨hfields, hsections⟩ := ih hrest
    rw [List.filter_cons_of_pos (by simp [hkind]), List.filter_cons_of_neg (by simp [hkind])]
    exact ⟨.cons ⟨rfl, value_of_flat hread⟩ hfields, hsections⟩
  | table hrows hread _ ih =>
    obtain ⟨leaf, rest, rfl, hleaf, hrest⟩ := List.map_eq_cons_iff.mp hls
    cases hleaf
    have hkind : leaf.2.isTable = true := by rw [is_table_eq, hrows, Option.isSome_some]
    obtain ⟨hfields, hsections⟩ := ih hrest
    rw [List.filter_cons_of_neg (by simp [hkind]), List.filter_cons_of_pos (by simp [hkind])]
    refine ⟨hfields, .cons ⟨section_id hread, _, array_of_rows hrows, ?_⟩ hsections⟩
    rwa [section_id hread]

/-- Each leaf gives its name to a field or to a section. -/
theorem Takes.mem_names {ls : Members} (h : Takes ls es ss) {leaf : String × Json} (hleaf : leaf ∈ ls) :
    leaf.1 ∈ es.map Prod.fst ∨ leaf.1 ∈ ss.map Section.id := by
  obtain ⟨hfields, htables⟩ := h.names
  rw [hfields, htables]
  cases hrows : (rowsOf? leaf.2).isSome with
  | false => exact .inl (List.mem_map_of_mem (List.mem_filter.mpr ⟨hleaf, by simpa using hrows⟩))
  | true => exact .inr (List.mem_map_of_mem (List.mem_filter.mpr ⟨hleaf, hrows⟩))

end Named

/-- A path leads to the name of all its keys joined, if its name is a name of documents and its first key
is not empty; behind an empty key that is joined there would be a point at the start. -/
theorem path_name_joined {path : List String} (h : isName (pathName path) = true) :
    pathName path = joined path ↔ path.head? ≠ some "" := by
  cases path with
  | nil => simp [pathName]
  | cons key rest =>
    cases hkey : key.isEmpty with
    | false =>
      have hne : key ≠ "" := by
        rintro rfl
        cases hkey
      simp [pathName, hkey, hne]
    | true =>
      obtain rfl := String.isEmpty_iff.mp hkey
      simp only [List.head?_cons, ne_eq, not_true_eq_false, iff_false]
      intro heq
      rw [heq] at h
      cases rest with
      | nil => cases h
      | cons second rest =>
        have hpoint : (joined ("" :: second :: rest)).toList.head? = some '.' := by
          simp [joined, String.intercalate_cons_cons]
        rw [isName] at h
        cases hchars : (joined ("" :: second :: rest)).toList with
        | nil => simp [hchars] at hpoint
        | cons c cs =>
          rw [hchars, List.head?_cons, Option.some.injEq] at hpoint
          rw [hchars, hpoint, isNameText] at h
          simp [isNameStart, Text.isLetter] at h

/-- What is read from an object has, in the order of its leaves, one field for each leaf that is no table
and one section for each that is. Both are named by the keys on the way to the leaf, joined with points
from the first key on that is not empty. All these are names of documents, and a name has all the keys of
its path in it exactly if the first key is not empty. -/
theorem leaves_named (text : String) (d : Document) (hread : readDocument text = .ok d) :
    ∃ j members, read text = .ok j ∧ j.distinct = .object members ∧
      List.Forall₂ IsField ((pathLeaves [] members).filter fun leaf => !leaf.2.isTable)
        d.context.entries ∧
      List.Forall₂ IsSection ((pathLeaves [] members).filter fun leaf => leaf.2.isTable) d.sections ∧
      ∀ leaf ∈ pathLeaves [] members, isName (pathName leaf.1) = true ∧
        (pathName leaf.1 = joined leaf.1 ↔ leaf.1.head? ≠ some "") := by
  obtain ⟨j, members, hj, hmembers, htakes, hlawful⟩ := imported_ok hread
  have hpaths : leaves "" members =
      (pathLeaves [] members).map fun leaf => (pathName leaf.1, leaf.2) := leaves_path [] members
  rw [hpaths] at htakes
  obtain ⟨hfields, hsections⟩ := htakes.named
  refine ⟨j, members, hj, hmembers, hfields, hsections, fun leaf hleaf => ?_⟩
  have hname : isName (pathName leaf.1) = true := by
    rcases htakes.mem_names (List.mem_map_of_mem hleaf) with hmem | hmem
    · obtain ⟨field, hfield, heq⟩ := List.mem_map.mp hmem
      have hvalid := (hlawful.context field hfield).1
      rwa [heq] at hvalid
    · obtain ⟨s, hs, heq⟩ := List.mem_map.mp hmem
      have hvalid := (hlawful.sections s hs).named
      rwa [heq] at hvalid
  exact ⟨hname, path_name_joined hname⟩

section Example

/-- A field `a` inside a member whose key is empty. -/
def namelessText : String :=
  "\x7b\"\": \x7b\"a\": 1\x7d\x7d"

/-- The paths of the leaves of an object that is given as text. -/
def readPaths (text : String) : Option (List (List String)) := do
  match (← (read text).toOption).distinct with
  | .object members => return (pathLeaves [] members).map Prod.fst
  | _ => none

/-- The empty key is lost: the field is read under `a`, although its keys joined are `.a`, which is no
name. -/
theorem nameless_parent_read :
    readPaths namelessText = some [["", "a"]] ∧ joined ["", "a"] = ".a" ∧ isName ".a" = false ∧
    readDocument namelessText = .ok ⟨⟨[("a", .int 1)], by simp⟩, []⟩ := by
  refine ⟨?_, ?_, ?_, ?_⟩ <;> decide +kernel

/-- Nested fields, one of them below an empty key, and a table. -/
def layeredText : String :=
  "\x7b\"server\": \x7b\"port\": 8080, \"tls\": \x7b\"on\": true\x7d\x7d, \"\": \x7b\"tags\": [\"x\"]\x7d, " ++
  "\"deps\": \x7b\"direct\": [\x7b\"crate\": \"serde\"\x7d]\x7d\x7d"

def layered : Document :=
  ⟨⟨[("server.port", .int 8080), ("server.tls.on", .bool true), ("tags", .array [.string "x"])],
    by simp⟩, [⟨"deps.direct", [⟨"crate", .string⟩], [[.string "serde"]]⟩]⟩

theorem leaves_named_layered :
    readDocument layeredText = .ok layered ∧ ∃ j members, read layeredText = .ok j ∧
      j.distinct = .object members ∧
      List.Forall₂ IsField ((pathLeaves [] members).filter fun leaf => !leaf.2.isTable)
        layered.context.entries ∧
      List.Forall₂ IsSection ((pathLeaves [] members).filter fun leaf => leaf.2.isTable)
        layered.sections ∧
      ∀ leaf ∈ pathLeaves [] members, isName (pathName leaf.1) = true ∧
        (pathName leaf.1 = joined leaf.1 ↔ leaf.1.head? ≠ some "") := by
  have hread : readDocument layeredText = .ok layered := by decide +kernel
  exact ⟨hread, leaves_named layeredText layered hread⟩

end Example
end DocForms.Json
