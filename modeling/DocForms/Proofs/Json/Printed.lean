import DocForms.Proofs.Json.Scalars

namespace DocForms.Json
open Text Number

/-- What may follow a number: no character that could belong to it. -/
def EndsNumber (rest : List Char) : Prop :=
  ∀ c ∈ rest.head?, isNumberMark c = false

theorem skip_blanks (n : Nat) (t : List Char) :
    skipSpace (List.replicate n ' ' ++ t) = skipSpace t := by
  refine List.dropWhile_append_of_pos fun c hc => ?_
  rw [(List.mem_replicate.mp hc).2]
  rfl

theorem skip_new_line (depth : Nat) (t : List Char) : skipSpace (newLine depth ++ t) = skipSpace t := by
  rw [newLine, List.cons_append, ← skip_blanks (2 * depth) t]
  rfl

theorem skip_none {c : Char} (h : isSpace c = false) (t : List Char) :
    skipSpace (c :: t) = c :: t :=
  List.dropWhile_cons_of_neg (by simp [h])

/-- No value begins with a space or like the end of an array, if its numbers begin with a sign or a
digit. -/
theorem pretty_begins {d : Nat} {j : Json} (h : ∀ n, j = .number n →
    ∃ c cs, numberText n = c :: cs ∧ (c = '-' ∨ isDigit c = true)) :
    ∃ c cs, prettyText d j = c :: cs ∧ isSpace c = false ∧ c ≠ ']' := by
  cases j with
  | null => exact ⟨'n', _, rfl, rfl, by decide⟩
  | bool b => cases b <;> exact ⟨_, _, rfl, rfl, by decide⟩
  | number n =>
    obtain ⟨c, cs, hcs, hc⟩ := h n rfl
    refine ⟨c, cs, hcs, ?_⟩
    rcases hc with rfl | hc
    · exact ⟨rfl, by decide⟩
    · refine ⟨digit_not_space hc, ?_⟩
      rintro rfl
      exact absurd hc (by decide)
  | string s => exact ⟨'"', _, rfl, rfl, by decide⟩
  | array items => cases items <;> exact ⟨'[', _, rfl, rfl, by decide⟩
  | object members =>
    cases members with
    | nil => exact ⟨'{', _, rfl, rfl, by decide⟩
    | cons m ms => exact ⟨'{', _, rfl, rfl, by decide⟩

/-- Something follows each item and each member. -/
theorem pretty_items_ends (d : Nat) (js : List Json) (rest : List Char) :
    EndsNumber (prettyItems d js ++ rest) := by
  cases js <;> rintro c ⟨⟩ <;> rfl

theorem pretty_members_ends (d : Nat) (ms : List (String × Json)) (rest : List Char) :
    EndsNumber (prettyMembers d ms ++ rest) := by
  cases ms with
  | nil => rintro c ⟨⟩; rfl
  | cons m ms => rintro c ⟨⟩; rfl

theorem length_string_text (s : String) : s.toList.length + 2 ≤ (stringText s).length := by
  have hlength := length_escaped s.toList
  simp only [stringText, List.length_append, List.length_cons, List.length_nil]
  omega

theorem length_pretty_items (d : Nat) (js : List Json) : 0 < (prettyItems d js).length := by
  cases js <;> simp [prettyItems]

/-- What a reader takes off the front of a text, with some fuel and at a depth that tells how many arrays and
objects may still be opened inside one another: a value, the items of an array from one on, the members of an
object from one on. Each is given with what is left of the text. -/
structure Reader where
  value : (fuel depth : Nat) → List Char → Json → List Char → Prop
  items : (fuel depth : Nat) → List Char → List Json → List Char → Prop
  members : (fuel depth : Nat) → List Char → List (String × Json) → List Char → Prop

/-- A value without parts. -/
def IsScalar : Json → Prop
  | .array _ | .object _ => False
  | _ => True

/-- A reader goes by the grammar for the values that fit it at their depth: it passes over spaces, takes
scalars as they are printed, and takes arrays and objects apart. -/
structure Reader.Follows (r : Reader) (Fits : (depth : Nat) → Json → Prop) : Prop where
  number {depth : Nat} {n : JsonNumber} (h : Fits depth (.number n)) :
    ∃ c cs, numberText n = c :: cs ∧ (c = '-' ∨ isDigit c = true)
  arrayFits {depth : Nat} {js : List Json} (h : Fits depth (.array js)) :
    ∃ below, depth = below + 1 ∧ ∀ j ∈ js, Fits below j
  objectFits {depth : Nat} {ms : List (String × Json)} (h : Fits depth (.object ms)) :
    ∃ below, depth = below + 1 ∧ ∀ m ∈ ms, Fits below m.2
  skipsValue {fuel depth : Nat} {s t rest : List Char} {j : Json} (hskip : skipSpace t = skipSpace s)
    (h : r.value fuel depth s j rest) : r.value fuel depth t j rest
  skipsItems {fuel depth : Nat} {s t rest : List Char} {js : List Json}
    (hskip : skipSpace t = skipSpace s) (h : r.items fuel depth s js rest) : r.items fuel depth t js rest
  skipsMembers {fuel depth : Nat} {s t rest : List Char} {ms : List (String × Json)}
    (hskip : skipSpace t = skipSpace s) (h : r.members fuel depth s ms rest) :
    r.members fuel depth t ms rest
  scalar {fuel depth d : Nat} {j : Json} {rest : List Char} (h : Fits depth j) (hj : IsScalar j)
    (hfuel : 2 * (prettyText d j).length ≤ fuel + 1) (hrest : EndsNumber rest) :
    r.value (fuel + 1) depth (prettyText d j ++ rest) j rest
  emptyArray {fuel depth : Nat} {rest : List Char} :
    r.value (fuel + 1) (depth + 1) ('[' :: ']' :: rest) (.array []) rest
  fullArray {fuel depth : Nat} {s rest cs : List Char} {c : Char} {js : List Json}
    (hs : skipSpace s = c :: cs) (hc : c ≠ ']') (hjs : r.items fuel depth (c :: cs) js rest) :
    r.value (fuel + 1) (depth + 1) ('[' :: s) (.array js) rest
  emptyObject {fuel depth : Nat} {rest : List Char} :
    r.value (fuel + 1) (depth + 1) ('{' :: '}' :: rest) (.object []) rest
  fullObject {fuel depth : Nat} {s rest cs : List Char} {c : Char} {ms : List (String × Json)}
    (hs : skipSpace s = c :: cs) (hc : c ≠ '}') (hms : r.members fuel depth (c :: cs) ms rest) :
    r.value (fuel + 1) (depth + 1) ('{' :: s) (.object ms) rest
  lastItem {fuel depth : Nat} {s t rest : List Char} {j : Json} (hj : r.value fuel depth s j t)
    (ht : skipSpace t = ']' :: rest) : r.items (fuel + 1) depth s [j] rest
  nextItem {fuel depth : Nat} {s t rest : List Char} {j : Json} {js : List Json}
    (hj : r.value fuel depth s j (',' :: t)) (hjs : r.items fuel depth t js rest) :
    r.items (fuel + 1) depth s (j :: js) rest
  lastMember {fuel depth : Nat} {s t rest : List Char} {key : String} {j : Json}
    (hkey : key.toList.length < fuel) (hj : r.value fuel depth s j t)
    (ht : skipSpace t = '}' :: rest) :
    r.members (fuel + 1) depth (stringText key ++ ':' :: s) [(key, j)] rest
  nextMember {fuel depth : Nat} {s t rest : List Char} {key : String} {j : Json}
    {ms : List (String × Json)} (hkey : key.toList.length < fuel)
    (hj : r.value fuel depth s j (',' :: t)) (hms : r.members fuel depth t ms rest) :
    r.members (fuel + 1) depth (stringText key ++ ':' :: s) ((key, j) :: ms) rest

/-- With some fuel, values, items and members are taken off the front of a text that these were printed to, if
it is short enough. -/
structure Reader.Restores (r : Reader) (Fits : (depth : Nat) → Json → Prop) (fuel : Nat) : Prop where
  value {j : Json} (d : Nat) {depth : Nat} (rest : List Char) (hj : Fits depth j)
    (hfuel : 2 * (prettyText d j).length ≤ fuel) (hrest : EndsNumber rest) :
    r.value fuel depth (prettyText d j ++ rest) j rest
  items {j : Json} {js : List Json} (d : Nat) {depth : Nat} (rest : List Char)
    (hfits : ∀ i ∈ j :: js, Fits depth i)
    (hfuel : 2 * (prettyText (d + 1) j ++ prettyItems d js).length ≤ fuel) :
    r.items fuel depth (prettyText (d + 1) j ++ (prettyItems d js ++ rest)) (j :: js) rest
  members {key : String} {j : Json} {ms : List (String × Json)} (d : Nat) {depth : Nat}
    (rest : List Char) (hfits : ∀ m ∈ (key, j) :: ms, Fits depth m.2)
    (hfuel : 2 * (stringText key ++ prettyText (d + 1) j ++ prettyMembers d ms).length ≤ fuel) :
    r.members fuel depth
      (stringText key ++ ':' :: ' ' :: (prettyText (d + 1) j ++ (prettyMembers d ms ++ rest)))
      ((key, j) :: ms) rest

namespace Reader
variable {r : Reader} {Fits : (depth : Nat) → Json → Prop} {fuel d depth : Nat} {rest : List Char}

theorem Follows.begins (h : r.Follows Fits) {j : Json} (hj : Fits depth j) (d : Nat) :
    ∃ c cs, prettyText d j = c :: cs ∧ isSpace c = false ∧ c ≠ ']' := by
  refine pretty_begins fun n hn => ?_
  rw [hn] at hj
  exact h.number hj

section Induction
variable (h : r.Follows Fits) (ih : r.Restores Fits fuel)
include h ih

theorem Follows.printed_array {j : Json} {js : List Json} (hfits : ∀ i ∈ j :: js, Fits depth i)
    (hfuel : 2 * (prettyText d (.array (j :: js))).length ≤ fuel + 1) :
    r.value (fuel + 1) (depth + 1) (prettyText d (.array (j :: js)) ++ rest) (.array (j :: js)) rest := by
  have hitems := ih.items d rest hfits (by
    simp only [prettyText, List.length_append, List.length_cons] at hfuel ⊢
    omega)
  obtain ⟨c, cs, hcs, hspace, hclose⟩ := h.begins (hfits j (by simp)) (d + 1)
  have htext : prettyText d (.array (j :: js)) ++ rest =
      '[' :: (newLine (d + 1) ++ (c :: (cs ++ (prettyItems d js ++ rest)))) := by
    simp [prettyText, hcs]
  rw [hcs] at hitems
  rw [htext]
  refine h.fullArray ?_ hclose hitems
  rw [skip_new_line]
  exact skip_none hspace _

theorem Follows.printed_object {key : String} {j : Json} {ms : List (String × Json)}
    (hfits : ∀ m ∈ (key, j) :: ms, Fits depth m.2)
    (hfuel : 2 * (prettyText d (.object ((key, j) :: ms))).length ≤ fuel + 1) :
    r.value (fuel + 1) (depth + 1) (prettyText d (.object ((key, j) :: ms)) ++ rest)
      (.object ((key, j) :: ms)) rest := by
  have hmembers := ih.members d rest hfits (by
    simp only [prettyText, List.length_append, List.length_cons] at hfuel ⊢
    omega)
  have htext : prettyText d (.object ((key, j) :: ms)) ++ rest =
      '{' :: (newLine (d + 1) ++ (stringText key ++ ':' :: ' ' :: (prettyText (d + 1) j ++
        (prettyMembers d ms ++ rest)))) := by
    simp [prettyText]
  rw [htext]
  refine h.fullObject (c := '"') ?_ (by decide) hmembers
  rw [skip_new_line]
  exact skip_none rfl _

theorem Follows.printed_value {j : Json} (hj : Fits depth j)
    (hfuel : 2 * (prettyText d j).length ≤ fuel + 1) (hrest : EndsNumber rest) :
    r.value (fuel + 1) depth (prettyText d j ++ rest) j rest := by
  cases j with
  | array js =>
    obtain ⟨below, rfl, hfits⟩ := h.arrayFits hj
    cases js with
    | nil => exact h.emptyArray
    | cons j js => exact h.printed_array ih hfits hfuel
  | object ms =>
    obtain ⟨below, rfl, hfits⟩ := h.objectFits hj
    cases ms with
    | nil => exact h.emptyObject
    | cons m ms => exact h.printed_object ih hfits hfuel
  | _ => exact h.scalar hj trivial hfuel hrest

theorem Follows.printed_items {j : Json} {js : List Json} (hfits : ∀ i ∈ j :: js, Fits depth i)
    (hfuel : 2 * (prettyText (d + 1) j ++ prettyItems d js).length ≤ fuel + 1) :
    r.items (fuel + 1) depth (prettyText (d + 1) j ++ (prettyItems d js ++ rest)) (j :: js) rest := by
  obtain ⟨hj, hjs⟩ := List.forall_mem_cons.mp hfits
  have hlength := length_pretty_items d js
  rw [List.length_append] at hfuel
  have hfirst := ih.value (d + 1) _ hj (by omega) (pretty_items_ends d js rest)
  cases js with
  | nil =>
    refine h.lastItem hfirst ?_
    rw [prettyItems, List.append_assoc, skip_new_line]
    rfl
  | cons next js =>
    have hnext := ih.items d rest hjs (by
      simp only [prettyItems, List.length_append, List.length_cons] at hfuel ⊢
      omega)
    refine h.nextItem ?_ (h.skipsItems (skip_new_line (d + 1) _) hnext)
    simpa [prettyItems] using hfirst

theorem Follows.printed_members {key : String} {j : Json} {ms : List (String × Json)}
    (hfits : ∀ m ∈ (key, j) :: ms, Fits depth m.2)
    (hfuel : 2 * (stringText key ++ prettyText (d + 1) j ++ prettyMembers d ms).length ≤ fuel + 1) :
    r.members (fuel + 1) depth
      (stringText key ++ ':' :: ' ' :: (prettyText (d + 1) j ++ (prettyMembers d ms ++ rest)))
      ((key, j) :: ms) rest := by
  obtain ⟨hj, hms⟩ : Fits depth j ∧ ∀ m ∈ ms, Fits depth m.2 := List.forall_mem_cons.mp hfits
  have hkey := length_string_text key
  rw [List.length_append, List.length_append] at hfuel
  have hvalue := ih.value (d + 1) _ hj (by omega) (pretty_members_ends d ms rest)
  have hfirst := h.skipsValue (skip_blanks 1 _) hvalue
  cases ms with
  | nil =>
    refine h.lastMember (by omega) hfirst ?_
    rw [prettyMembers, List.append_assoc, skip_new_line]
    rfl
  | cons m ms =>
    obtain ⟨next, k⟩ := m
    have hnext := ih.members d rest hms (by
      simp only [prettyMembers, List.length_append, List.length_cons] at hfuel ⊢
      omega)
    refine h.nextMember (by omega) ?_ (h.skipsMembers (skip_new_line (d + 1) _) hnext)
    simpa [prettyMembers] using hfirst

end Induction

/-- By induction on the fuel: whatever is taken off leaves less fuel for its parts, and less text. -/
theorem Follows.restores (h : r.Follows Fits) (fuel : Nat) : r.Restores Fits fuel := by
  induction fuel with
  | zero =>
    have hfirst {j : Json} {d depth : Nat} (hj : Fits depth j) : 0 < (prettyText d j).length := by
      obtain ⟨c, cs, hcs, -, -⟩ := h.begins hj d
      simp [hcs]
    refine ⟨fun d _ _ hj hfuel => ?_, fun d _ _ hfits hfuel => ?_, fun {key j _} d _ _ hfits hfuel => ?_⟩
    · have hpos := hfirst (d := d) hj
      omega
    · have hpos := hfirst (d := d + 1) (hfits _ (List.mem_cons_self ..))
      rw [List.length_append] at hfuel
      omega
    · have hj : Fits _ j := hfits (key, j) (List.mem_cons_self ..)
      have hpos := hfirst (d := d + 1) hj
      simp only [List.length_append] at hfuel
      omega
  | succ fuel ih =>
    exact ⟨fun _ _ _ => h.printed_value ih, fun _ _ _ => h.printed_items ih,
      fun _ _ _ => h.printed_members ih⟩

end Reader
end DocForms.Json
