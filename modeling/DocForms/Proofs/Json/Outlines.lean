import DocForms.Proofs.Json.Printed
import Mathlib.Data.List.TakeDrop

namespace DocForms.Json
open Text Number

mutual
/-- The outline of a value of which all can be read. -/
def outline : Json → Outline
  | .array items => .array (outlines items)
  | .object members => .object (memberOutlines members)
  | j => .scalar j

def outlines : List Json → List Outline
  | [] => []
  | j :: js => outline j :: outlines js

def memberOutlines : List (String × Json) → List (String × Outline)
  | [] => []
  | (key, j) :: ms => (key, outline j) :: memberOutlines ms
end

mutual
/-- Values made of strings and of counts that fit 64 bits, with no more than `depth` arrays and objects
inside one another. -/
def Plain : (depth : Nat) → Json → Prop
  | _, .string _ => True
  | _, .number n => ∃ k ≤ significandLimit, n = .int k
  | depth + 1, .array items => PlainItems depth items
  | depth + 1, .object members => PlainMembers depth members
  | _, _ => False

def PlainItems (depth : Nat) : List Json → Prop
  | [] => True
  | j :: js => Plain depth j ∧ PlainItems depth js

def PlainMembers (depth : Nat) : List (String × Json) → Prop
  | [] => True
  | (_, j) :: ms => Plain depth j ∧ PlainMembers depth ms
end

theorem plain_items {depth : Nat} {items : List Json} :
    PlainItems depth items ↔ ∀ j ∈ items, Plain depth j := by
  induction items with
  | nil => simp [PlainItems]
  | cons j js ih => rw [PlainItems, ih, List.forall_mem_cons]

theorem plain_members {depth : Nat} {members : List (String × Json)} :
    PlainMembers depth members ↔ ∀ m ∈ members, Plain depth m.2 := by
  induction members with
  | nil => simp [PlainMembers]
  | cons m ms ih => rw [PlainMembers, ih, List.forall_mem_cons]

/-- The text of a scalar, as it is. -/
def asWritten (cs : List Char) : Option String :=
  some (String.ofList cs)

/-- A string is taken off the front of a text and keeps its value. -/
theorem outline_string (s : String) (rest : List Char) :
    scalarText? (stringText s ++ rest) = some (stringText s, rest) ∧
      scalarValue? asWritten (stringText s) = some (.string s) := by
  constructor
  · rw [stringText, List.append_assoc, List.cons_append, scalarText?, List.singleton_append,
      take_string]
    rfl
  · have hread := read_string_text s
    simp only [scalarValue?, asWritten, Option.bind_eq_bind, Option.bind_some, hread,
      Except.toOption]

/-- A count is taken off the front of a text and keeps its value. -/
theorem outline_count {n : Nat} (h : n ≤ significandLimit) {rest : List Char}
    (hrest : EndsNumber rest) :
    scalarText? (natText n ++ rest) = some (natText n, rest) ∧
      scalarValue? asWritten (natText n) = some (.ofNat n) := by
  constructor
  · have hdigits := nat_text_digits n
    have hnumber := number_nat_text n
    have hmarks : ∀ c ∈ natText n, isNumberMark c = true := fun c hc => by
      simp [isNumberMark, hdigits c hc]
    have htake : (natText n ++ rest).takeWhile isNumberMark = natText n := by
      rw [List.takeWhile_append_of_pos hmarks]
      cases rest with
      | nil => simp
      | cons c cs => simp [hrest c rfl]
    have hdrop : (natText n ++ rest).dropWhile isNumberMark = rest := by
      rw [List.dropWhile_append_of_pos hmarks]
      cases rest with
      | nil => simp
      | cons c cs => simp [hrest c rfl]
    obtain ⟨c, cs, hcs, hc⟩ := nat_text_begins n
    rw [hcs] at hnumber htake hdrop ⊢
    have hletter : isLetter c = false := by
      simp only [isDigit, isLetter, Bool.and_eq_true, decide_eq_true_eq, Bool.or_eq_false_iff,
        Bool.and_eq_false_iff, decide_eq_false_iff_not, char_le_iff] at hc ⊢
      simp at hc ⊢
      omega
    rw [List.cons_append] at htake hdrop ⊢
    rw [scalarText?, hletter, if_neg Bool.false_ne_true, List.span_eq_takeWhile_dropWhile, htake,
      hdrop]
    · dsimp only
      rw [hnumber, Bool.true_or, if_pos rfl]
    · rintro rfl
      exact absurd hc (by decide)
  · have hread := read_nat_value h
    simp only [scalarValue?, asWritten, Option.bind_eq_bind, Option.bind_some, hread,
      Except.toOption]

theorem plain_number {depth : Nat} {n : JsonNumber} (h : Plain depth (.number n)) :
    ∃ k ≤ significandLimit, n = .int k := by
  rwa [Plain] at h

theorem number_text_nat (k : Nat) : numberText (.int k) = natText k := by
  rw [numberText, intText, if_neg (by omega)]
  rfl

section Steps
variable {fuel depth : Nat} {s rest : List Char}

/-- Spaces in front of a value do not matter. -/
theorem read_outline_skips {t : List Char} (hskip : skipSpace t = skipSpace s) :
    readOutline asWritten fuel depth t = readOutline asWritten fuel depth s := by
  cases fuel with
  | zero => rw [readOutline, readOutline]
  | succ fuel => rw [readOutline, readOutline, hskip]

theorem read_outlines_skips {t : List Char} (hskip : skipSpace t = skipSpace s) :
    readOutlines asWritten fuel depth t = readOutlines asWritten fuel depth s := by
  cases fuel with
  | zero => rw [readOutlines, readOutlines]
  | succ fuel => rw [readOutlines, readOutlines, read_outline_skips hskip]

theorem read_outline_members_skips {t : List Char} (hskip : skipSpace t = skipSpace s) :
    readOutlineMembers asWritten fuel depth t = readOutlineMembers asWritten fuel depth s := by
  have hkey : readKey asWritten t = readKey asWritten s := by rw [readKey, readKey, hskip]
  cases fuel with
  | zero => rw [readOutlineMembers, readOutlineMembers]
  | succ fuel => rw [readOutlineMembers, readOutlineMembers, hkey]

theorem read_scalar {text : List Char} {j : Json} (hs : skipSpace s = s)
    (hc : s.head? ≠ some '[' ∧ s.head? ≠ some '{') (htext : scalarText? s = some (text, rest))
    (hvalue : scalarValue? asWritten text = some j) :
    readOutline asWritten (fuel + 1) depth s = some (.scalar j, rest) := by
  rw [readOutline, hs]
  split
  · exact absurd rfl hc.1
  · exact absurd rfl hc.2
  · rw [htext]
    simp [hvalue]

theorem read_array_empty :
    readOutline asWritten (fuel + 1) (depth + 1) ('[' :: ']' :: rest) = some (.array [], rest) :=
  rfl

theorem read_array {c : Char} {cs : List Char} {items : List Outline} (hs : skipSpace s = c :: cs)
    (hc : c ≠ ']') (hitems : readOutlines asWritten fuel depth (c :: cs) = some (items, rest)) :
    readOutline asWritten (fuel + 1) (depth + 1) ('[' :: s) = some (.array items, rest) := by
  rw [readOutline, show skipSpace ('[' :: s) = '[' :: s from rfl]
  split
  · rename_i heq
    cases heq
    simp only [hs, Nat.succ_ne_zero, if_false]
    split
    · rename_i heq
      exact absurd (List.cons.inj heq).1 hc
    · rw [Nat.add_sub_cancel, hitems]
      rfl
  · rename_i heq
    cases heq
  · rename_i hne _
    exact absurd rfl (hne s)

theorem read_object_empty :
    readOutline asWritten (fuel + 1) (depth + 1) ('{' :: '}' :: rest) = some (.object [], rest) :=
  rfl

/-- A member as it is read, with a key that is text. -/
def keyed (m : String × Outline) : Option String × Outline :=
  (some m.1, m.2)

/-- Keys that all have a value make an object. -/
theorem outline_object (members : List (String × Outline)) :
    outlineObject (members.map keyed) = .object members := by
  have hmembers (f : Option String × Outline → Option (String × Outline))
      (hf : ∀ m, f (keyed m) = some m) : (members.map keyed).mapM f = some members := by
    induction members with
    | nil => rfl
    | cons m ms ih =>
      rw [List.map_cons, List.mapM_cons, hf, ih]
      rfl
  rw [outlineObject, hmembers]
  exact fun _ => rfl

theorem read_object {c : Char} {cs : List Char} {members : List (String × Outline)}
    (hs : skipSpace s = c :: cs) (hc : c ≠ '}')
    (hmembers : readOutlineMembers asWritten fuel depth (c :: cs) =
      some (members.map keyed, rest)) :
    readOutline asWritten (fuel + 1) (depth + 1) ('{' :: s) = some (.object members, rest) := by
  rw [readOutline, show skipSpace ('{' :: s) = '{' :: s from rfl]
  split
  · rename_i heq
    cases heq
  · rename_i heq
    cases heq
    simp only [hs, Nat.succ_ne_zero, if_false]
    split
    · rename_i heq
      exact absurd (List.cons.inj heq).1 hc
    · rw [Nat.add_sub_cancel, hmembers, Option.bind_eq_bind, Option.bind_some, outline_object]
      rfl
  · rename_i hne
    exact absurd rfl (hne s)

/-- The last item of an array. -/
theorem read_last_item {o : Outline} {t : List Char}
    (ho : readOutline asWritten fuel depth s = some (o, t)) (ht : skipSpace t = ']' :: rest) :
    readOutlines asWritten (fuel + 1) depth s = some ([o], rest) := by
  rw [readOutlines, ho, Option.bind_eq_bind, Option.bind_some]
  dsimp only
  rw [ht]
  rfl

theorem read_next_item {o : Outline} {os : List Outline} {t : List Char}
    (ho : readOutline asWritten fuel depth s = some (o, ',' :: t))
    (hos : readOutlines asWritten fuel depth t = some (os, rest)) :
    readOutlines asWritten (fuel + 1) depth s = some (o :: os, rest) := by
  rw [readOutlines, ho, Option.bind_eq_bind, Option.bind_some]
  dsimp only
  rw [show skipSpace (',' :: t) = ',' :: t from rfl]
  split
  · rename_i heq
    cases heq
  · rename_i heq
    cases heq
    rw [hos]
    rfl
  · rename_i hne
    exact absurd rfl (hne t)

theorem read_key_text (key : String) :
    readKey asWritten (stringText key ++ ':' :: rest) = some (some key, rest) := by
  obtain ⟨-, hvalue⟩ := outline_string key rest
  have htext : stringText? (key.toList.flatMap escapedChar ++ '"' :: ':' :: rest) =
      some (key.toList.flatMap escapedChar ++ ['"'], ':' :: rest) := take_string _ _
  have hskip : skipSpace (stringText key ++ ':' :: rest) =
      '"' :: (key.toList.flatMap escapedChar ++ '"' :: ':' :: rest) := by
    rw [stringText, List.append_assoc]
    rfl
  rw [readKey, hskip]
  simp only [Option.bind_eq_bind]
  rw [htext, Option.bind_some]
  dsimp only
  rw [show skipSpace (':' :: rest) = ':' :: rest from rfl]
  split
  · rename_i heq
    cases heq
    rw [show '"' :: (key.toList.flatMap escapedChar ++ ['"']) = stringText key from rfl, hvalue]
    rfl
  · rename_i hne
    exact absurd rfl (hne rest)

theorem read_last_member {key : String} {o : Outline} {t : List Char}
    (ho : readOutline asWritten fuel depth s = some (o, t)) (ht : skipSpace t = '}' :: rest) :
    readOutlineMembers asWritten (fuel + 1) depth (stringText key ++ ':' :: s) =
      some ([(some key, o)], rest) := by
  rw [readOutlineMembers, read_key_text, Option.bind_eq_bind, Option.bind_some]
  dsimp only
  rw [ho, Option.bind_eq_bind, Option.bind_some]
  dsimp only
  rw [ht]
  rfl

theorem read_next_member {key : String} {o : Outline} {ms : List (Option String × Outline)}
    {t : List Char} (ho : readOutline asWritten fuel depth s = some (o, ',' :: t))
    (hms : readOutlineMembers asWritten fuel depth t = some (ms, rest)) :
    readOutlineMembers asWritten (fuel + 1) depth (stringText key ++ ':' :: s) =
      some ((some key, o) :: ms, rest) := by
  rw [readOutlineMembers, read_key_text, Option.bind_eq_bind, Option.bind_some]
  dsimp only
  rw [ho, Option.bind_eq_bind, Option.bind_some]
  dsimp only
  rw [show skipSpace (',' :: t) = ',' :: t from rfl]
  split
  · rename_i heq
    cases heq
  · rename_i heq
    cases heq
    rw [hms]
    rfl
  · rename_i hne
    exact absurd rfl (hne t)

end Steps

/-- The reader of outlines, by the values that they are the outlines of. -/
def outlineReader : Reader where
  value fuel depth s j rest := readOutline asWritten fuel depth s = some (outline j, rest)
  items fuel depth s js rest := readOutlines asWritten fuel depth s = some (outlines js, rest)
  members fuel depth s ms rest :=
    readOutlineMembers asWritten fuel depth s = some ((memberOutlines ms).map keyed, rest)

theorem read_plain_scalar {d : Nat} {j : Json} {fuel depth : Nat} {rest : List Char}
    (h : Plain depth j) (hj : IsScalar j) (hrest : EndsNumber rest) :
    readOutline asWritten (fuel + 1) depth (prettyText d j ++ rest) = some (outline j, rest) := by
  cases j with
  | null => cases depth <;> cases h
  | bool b => cases depth <;> cases h
  | number n =>
    obtain ⟨k, hk, rfl⟩ := plain_number h
    obtain ⟨htext, hvalue⟩ := outline_count hk hrest
    obtain ⟨c, cs, hcs, hc⟩ := nat_text_begins k
    rw [prettyText, number_text_nat]
    refine read_scalar ?_ ?_ htext hvalue
    · rw [hcs]
      exact skip_none (digit_not_space hc) _
    · rw [hcs]
      constructor <;>
      · rintro ⟨⟩
        exact absurd hc (by decide)
  | string s =>
    obtain ⟨htext, hvalue⟩ := outline_string s rest
    refine read_scalar rfl ?_ htext hvalue
    constructor <;> rintro ⟨⟩
  | array js => cases hj
  | object ms => cases hj

theorem outline_reader_follows : outlineReader.Follows Plain where
  number {_ n} h := by
    obtain ⟨k, -, rfl⟩ := plain_number h
    obtain ⟨c, cs, hcs, hc⟩ := nat_text_begins k
    exact ⟨c, cs, by rw [number_text_nat, hcs], .inr hc⟩
  arrayFits {depth _} h := by
    cases depth with
    | zero => cases h
    | succ below => exact ⟨below, rfl, plain_items.mp h⟩
  objectFits {depth _} h := by
    cases depth with
    | zero => cases h
    | succ below => exact ⟨below, rfl, plain_members.mp h⟩
  skipsValue hskip h := (read_outline_skips hskip).trans h
  skipsItems hskip h := (read_outlines_skips hskip).trans h
  skipsMembers hskip h := (read_outline_members_skips hskip).trans h
  scalar h hj _ hrest := read_plain_scalar h hj hrest
  emptyArray := read_array_empty
  fullArray := read_array
  emptyObject := read_object_empty
  fullObject := read_object
  lastItem := read_last_item
  nextItem := read_next_item
  lastMember _ := read_last_member
  nextMember _ := read_next_member

/-- The outline of the text of a value is the value. -/
theorem outline_pretty {j : Json} (hj : Plain depthLimit j) :
    Outline.ofText? (pretty j) = some (outline j) := by
  have hread : readOutline asWritten (2 * (prettyText 0 j).length + 2) depthLimit
      (prettyText 0 j ++ []) = some (outline j, []) :=
    (outline_reader_follows.restores _).value 0 [] hj (by omega) nofun
  rw [List.append_nil] at hread
  change outlineOf? asWritten (pretty j).toList = _
  rw [pretty, String.toList_ofList, outlineOf?, hread]
  rfl

mutual
/-- All of the outline of a value can be read. -/
theorem outline_to_json : (j : Json) → (outline j).toJson? = some j
  | .null | .bool _ | .number _ | .string _ => rfl
  | .array items => by
    rw [outline, Outline.toJson?, outlines_to_json items]
    rfl
  | .object members => by
    rw [outline, Outline.toJson?, members_to_json members]
    rfl

theorem outlines_to_json : (items : List Json) → Outline.toJsons? (outlines items) = some items
  | [] => rfl
  | j :: js => by
    rw [outlines, Outline.toJsons?, outline_to_json j, outlines_to_json js]
    rfl

theorem members_to_json :
    (members : List (String × Json)) → Outline.toMembers? (memberOutlines members) = some members
  | [] => rfl
  | (key, j) :: ms => by
    rw [memberOutlines, Outline.toMembers?, outline_to_json j, members_to_json ms]
    rfl
end

end DocForms.Json
