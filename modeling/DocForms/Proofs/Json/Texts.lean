import DocForms.Proofs.Json.Numbers

namespace DocForms.Json
open Text Number

mutual
/-- Values whose numbers are read back, with no more than `depth` arrays and objects inside one
another. -/
def Legible : (depth : Nat) → Json → Prop
  | _, .null | _, .bool _ | _, .string _ => True
  | _, .number n => ReadsBack n
  | depth + 1, .array items => LegibleItems depth items
  | depth + 1, .object members => LegibleMembers depth members
  | 0, _ => False

def LegibleItems (depth : Nat) : List Json → Prop
  | [] => True
  | j :: js => Legible depth j ∧ LegibleItems depth js

def LegibleMembers (depth : Nat) : List (String × Json) → Prop
  | [] => True
  | (_, j) :: ms => Legible depth j ∧ LegibleMembers depth ms
end

theorem legible_items {depth : Nat} {items : List Json} :
    LegibleItems depth items ↔ ∀ j ∈ items, Legible depth j := by
  induction items with
  | nil => simp [LegibleItems]
  | cons j js ih => rw [LegibleItems, ih, List.forall_mem_cons]

theorem legible_members {depth : Nat} {members : List (String × Json)} :
    LegibleMembers depth members ↔ ∀ m ∈ members, Legible depth m.2 := by
  induction members with
  | nil => simp [LegibleMembers]
  | cons m ms ih => rw [LegibleMembers, ih, List.forall_mem_cons]

theorem legible_number {depth : Nat} {n : JsonNumber} :
    Legible depth (.number n) ↔ ReadsBack n := by
  cases depth <;> rw [Legible]

section Steps
variable {fuel depth : Nat} {s rest : List Char}

/-- Spaces in front of a value do not matter. -/
theorem read_value_skips {t : List Char} {r : Json × List Char} (hskip : skipSpace t = skipSpace s)
    (h : readValue fuel depth s = .ok r) : readValue fuel depth t = .ok r := by
  cases fuel with
  | zero => cases h
  | succ fuel =>
    rw [readValue, hskip]
    rwa [readValue] at h

theorem read_items_skips {t : List Char} {r : List Json × List Char}
    (hskip : skipSpace t = skipSpace s) (h : readItems fuel depth s = .ok r) :
    readItems fuel depth t = .ok r := by
  cases fuel with
  | zero => cases h
  | succ fuel =>
    rw [readItems] at h ⊢
    obtain ⟨first, hfirst, hrest⟩ := bind_eq_ok.mp h
    rw [read_value_skips hskip hfirst, ok_bind]
    exact hrest

theorem read_members_skips {t : List Char} {r : List (String × Json) × List Char}
    (hskip : skipSpace t = skipSpace s) (h : readMembers fuel depth s = .ok r) :
    readMembers fuel depth t = .ok r := by
  cases fuel with
  | zero => cases h
  | succ fuel =>
    rw [readMembers, hskip]
    rwa [readMembers] at h

theorem read_text_value {text : String} (h : text.toList.length < fuel) :
    readValue (fuel + 1) depth (stringText text ++ rest) = .ok (.string text, rest) := by
  have htext : stringText text ++ rest = '"' :: (text.toList.flatMap escapedChar ++ '"' :: rest) := by
    rw [stringText, List.append_assoc]
    rfl
  have hopen (t : List Char) : readValue (fuel + 1) depth ('"' :: t) =
      (readString fuel t).map fun read => (.string (String.ofList read.1), read.2) := rfl
  rw [htext, hopen, read_string _ _ _ h, map_ok, String.ofList_toList]

theorem read_empty_array :
    readValue (fuel + 1) (depth + 1) ('[' :: ']' :: rest) = .ok (.array [], rest) :=
  rfl

theorem read_full_array {c : Char} {cs : List Char} {items : List Json}
    (hs : skipSpace s = c :: cs) (hc : c ≠ ']')
    (hitems : readItems fuel depth (c :: cs) = .ok (items, rest)) :
    readValue (fuel + 1) (depth + 1) ('[' :: s) = .ok (.array items, rest) := by
  rw [readValue, skip_none rfl]
  simp only [hs]
  split
  · rename_i heq
    exact absurd (List.cons.inj heq).1 hc
  · rw [hitems]
    rfl

theorem read_empty_object :
    readValue (fuel + 1) (depth + 1) ('{' :: '}' :: rest) = .ok (.object [], rest) :=
  rfl

theorem read_full_object {c : Char} {cs : List Char} {members : List (String × Json)}
    (hs : skipSpace s = c :: cs) (hc : c ≠ '}')
    (hmembers : readMembers fuel depth (c :: cs) = .ok (members, rest)) :
    readValue (fuel + 1) (depth + 1) ('{' :: s) = .ok (.object members, rest) := by
  rw [readValue, skip_none rfl]
  simp only [hs]
  split
  · rename_i heq
    exact absurd (List.cons.inj heq).1 hc
  · rw [hmembers]
    rfl

theorem read_final_item {j : Json} {t : List Char} (hj : readValue fuel depth s = .ok (j, t))
    (ht : skipSpace t = ']' :: rest) : readItems (fuel + 1) depth s = .ok ([j], rest) := by
  rw [readItems, hj, ok_bind]
  dsimp only
  rw [ht]
  rfl

theorem read_further_item {j : Json} {js : List Json} {t : List Char}
    (hj : readValue fuel depth s = .ok (j, ',' :: t))
    (hjs : readItems fuel depth t = .ok (js, rest)) :
    readItems (fuel + 1) depth s = .ok (j :: js, rest) := by
  have hcomma : readItems (fuel + 1) depth s =
      readItems fuel depth t >>= fun read => pure (j :: read.1, read.2) := by
    rw [readItems, hj]
    rfl
  rw [hcomma, hjs]
  rfl

/-- The members from one on whose value has been read. -/
def readAfterValue (fuel depth : Nat) (key : String) (value : Json × List Char) :
    Reading (List (String × Json) × List Char) :=
  match skipSpace value.2 with
  | '}' :: rest => return ([(key, value.1)], rest)
  | ',' :: rest => do
    let (ms, rest) ← readMembers fuel depth rest
    return ((key, value.1) :: ms, rest)
  | rest => refuse rest

/-- The key of a member is taken off, with the colon behind it. -/
theorem read_member {key : String} (h : key.toList.length < fuel) :
    readMembers (fuel + 1) depth (stringText key ++ ':' :: s) =
      readValue fuel depth s >>= readAfterValue fuel depth key := by
  have htext : stringText key ++ ':' :: s =
      '"' :: (key.toList.flatMap escapedChar ++ '"' :: ':' :: s) := by
    rw [stringText, List.append_assoc]
    rfl
  rw [htext, readMembers, skip_none rfl]
  simp only [read_string _ _ _ h, ok_bind, skip_none (c := ':') rfl, String.ofList_toList]
  rfl

theorem read_final_member {key : String} (h : key.toList.length < fuel) {j : Json} {t : List Char}
    (hj : readValue fuel depth s = .ok (j, t)) (ht : skipSpace t = '}' :: rest) :
    readMembers (fuel + 1) depth (stringText key ++ ':' :: s) = .ok ([(key, j)], rest) := by
  rw [read_member h, hj, ok_bind, readAfterValue, ht]
  rfl

theorem read_further_member {key : String} (h : key.toList.length < fuel) {j : Json}
    {ms : List (String × Json)} {t : List Char} (hj : readValue fuel depth s = .ok (j, ',' :: t))
    (hms : readMembers fuel depth t = .ok (ms, rest)) :
    readMembers (fuel + 1) depth (stringText key ++ ':' :: s) = .ok ((key, j) :: ms, rest) := by
  have hcomma : readMembers (fuel + 1) depth (stringText key ++ ':' :: s) =
      readMembers fuel depth t >>= fun read => pure ((key, j) :: read.1, read.2) := by
    rw [read_member h, hj]
    rfl
  rw [hcomma, hms]
  rfl

end Steps

/-- The reader of values. -/
def valueReader : Reader where
  value fuel depth s j rest := readValue fuel depth s = .ok (j, rest)
  items fuel depth s js rest := readItems fuel depth s = .ok (js, rest)
  members fuel depth s ms rest := readMembers fuel depth s = .ok (ms, rest)

theorem read_legible_scalar {d : Nat} {j : Json} {fuel depth : Nat} {rest : List Char}
    (h : Legible depth j) (hj : IsScalar j) (hfuel : 2 * (prettyText d j).length ≤ fuel + 1)
    (hrest : EndsNumber rest) :
    readValue (fuel + 1) depth (prettyText d j ++ rest) = .ok (j, rest) := by
  cases j with
  | null => rfl
  | bool b => cases b <;> rfl
  | number n => exact read_value_number (read_number_append hrest (legible_number.mp h))
  | string s =>
    have hlength := length_string_text s
    rw [prettyText] at hfuel
    exact read_text_value (by omega)
  | array js => cases hj
  | object ms => cases hj

theorem value_reader_follows : valueReader.Follows Legible where
  number h := number_first (legible_number.mp h)
  arrayFits {depth _} h := by
    cases depth with
    | zero => cases h
    | succ below => exact ⟨below, rfl, legible_items.mp h⟩
  objectFits {depth _} h := by
    cases depth with
    | zero => cases h
    | succ below => exact ⟨below, rfl, legible_members.mp h⟩
  skipsValue := read_value_skips
  skipsItems := read_items_skips
  skipsMembers := read_members_skips
  scalar := read_legible_scalar
  emptyArray := read_empty_array
  fullArray := read_full_array
  emptyObject := read_empty_object
  fullObject := read_full_object
  lastItem := read_final_item
  nextItem := read_further_item
  lastMember hkey hj ht := read_final_member hkey hj ht
  nextMember hkey hj hms := read_further_member hkey hj hms

/-- A text of lines is read as the value that it was written for. -/
theorem read_pretty {j : Json} (hj : Legible depthLimit j) :
    read (String.ofList (prettyText 0 j ++ ['\n'])) = .ok j := by
  have hread : readValue (2 * (prettyText 0 j ++ ['\n']).length + 2) depthLimit
      (prettyText 0 j ++ ['\n']) = .ok (j, ['\n']) :=
    (value_reader_follows.restores _).value 0 _ hj (by rw [List.length_append]; omega) (by
      rintro c ⟨⟩
      rfl)
  rw [read, String.toList_ofList, readAll, hread]
  rfl

end DocForms.Json
