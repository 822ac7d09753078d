import DocForms.Proofs.Text.Quoted
import DocForms.Proofs.Text.Words
import Mathlib.Data.List.Forall2

namespace DocForms.Text

/-- A hexadecimal digit in either case, with its value. -/
inductive HexDigit (c : Char) : Nat → Prop
  | decimal (h : '0' ≤ c ∧ c ≤ '9') : HexDigit c (c.toNat - '0'.toNat)
  | lower (h : 'a' ≤ c ∧ c ≤ 'f') : HexDigit c (c.toNat - 'a'.toNat + 10)
  | upper (h : 'A' ≤ c ∧ c ≤ 'F') : HexDigit c (c.toNat - 'A'.toNat + 10)

/-- Hexadecimal digits, most significant first, with the number that they denote. -/
def Numeral (digits : List Char) (n : Nat) : Prop :=
  ∃ values, List.Forall₂ HexDigit digits values ∧ n = values.foldl (16 * · + ·) 0

/-- An item of a quoted field, with the character that it denotes. A surrogate has a number but is no
character, so no item denotes it. -/
inductive Item : List Char → Char → Prop
  | plain {c : Char} (hq : c ≠ '"') (hb : c ≠ '\\') : Item [c] c
  | quotationMark : Item ['\\', '"'] '"'
  | backslash : Item ['\\', '\\'] '\\'
  | lineFeed : Item ['\\', 'n'] '\n'
  | carriageReturn : Item ['\\', 'r'] '\r'
  | tab : Item ['\\', 't'] '\t'
  | code {digits : List Char} {c : Char} (four : digits.length = 4) (h : Numeral digits c.toNat) :
    Item ('\\' :: 'u' :: digits) c

/-- The items that are read: a code may also be three digits after a plus sign. -/
inductive ReadableItem : List Char → Char → Prop
  | item {t : List Char} {c : Char} (h : Item t c) : ReadableItem t c
  | signed {digits : List Char} {c : Char} (three : digits.length = 3)
    (h : Numeral digits c.toNat) : ReadableItem ('\\' :: 'u' :: '+' :: digits) c

/-- A sequence of items, with the text that they denote one after another. -/
inductive Denotes (item : List Char → Char → Prop) : List Char → List Char → Prop
  | nil : Denotes item [] []
  | cons {t : List Char} {c : Char} {body s : List Char} (first : item t c)
    (rest : Denotes item body s) : Denotes item (t ++ body) (c :: s)

/-- A body of items between quotation marks. -/
def Quotation (item : List Char → Char → Prop) (field s : List Char) : Prop :=
  ∃ body, field = '"' :: (body ++ ['"']) ∧ Denotes item body s

section Codes

theorem hex_value_iff {c : Char} {n : Nat} : hexValue c = some n ↔ HexDigit c n := by
  have h0 : '0'.toNat = 48 := rfl
  have h9 : '9'.toNat = 57 := rfl
  have ha : 'a'.toNat = 97 := rfl
  have hf : 'f'.toNat = 102 := rfl
  have hA : 'A'.toNat = 65 := rfl
  have hF : 'F'.toNat = 70 := rfl
  constructor
  · intro h
    unfold hexValue at h
    split at h
    · rename_i hdigit
      cases h
      exact .decimal (by simpa [isDigit] using hdigit)
    · split at h
      · cases h
        exact .lower ‹_›
      · split at h
        · cases h
          exact .upper ‹_›
        · cases h
  · intro h
    cases h with
    | decimal h => simp [hexValue, isDigit, h]
    | lower h =>
      have hdigit : ¬c ≤ '9' := by
        rw [char_le_iff] at h ⊢
        omega
      simp [hexValue, isDigit, h, hdigit]
    | upper h =>
      have hdigit : ¬c ≤ '9' := by
        rw [char_le_iff] at h ⊢
        omega
      have hlower : ¬ 'a' ≤ c := by
        rw [char_le_iff, char_le_iff] at h
        rw [char_le_iff]
        omega
      simp [hexValue, isDigit, h, hdigit, hlower]

theorem hex_fold_iff {digits : List Char} {m n : Nat} :
    digits.foldlM (fun n c => (hexValue c).map (16 * n + ·)) m = some n ↔
      ∃ values, List.Forall₂ HexDigit digits values ∧ n = values.foldl (16 * · + ·) m := by
  induction digits generalizing m with
  | nil => simp [eq_comm]
  | cons c cs ih =>
    simp only [List.foldlM_cons, Option.bind_eq_bind, Option.bind_eq_some_iff, Option.map_eq_some_iff,
      hex_value_iff, ih]
    constructor
    · rintro ⟨_, ⟨v, hv, rfl⟩, values, hvalues, rfl⟩
      exact ⟨v :: values, .cons hv hvalues, rfl⟩
    · rintro ⟨_, hvalues, rfl⟩
      cases hvalues with
      | cons hv hrest => exact ⟨_, ⟨_, hv, rfl⟩, _, hrest, rfl⟩

theorem hex_number_iff {digits : List Char} {n : Nat} :
    hexNumber digits = some n ↔ Numeral digits n :=
  hex_fold_iff

theorem char_of_number_iff {n : Nat} {c : Char} : charOfNumber n = some c ↔ n = c.toNat := by
  constructor
  · intro h
    unfold charOfNumber at h
    split at h
    · rename_i hvalid
      cases h
      rw [Char.ofNat, dif_pos hvalid]
      rfl
    · cases h
  · rintro rfl
    exact char_of_number_to_nat c

theorem plus_no_digit {digits : List Char} {n : Nat} : ¬Numeral ('+' :: digits) n := by
  rintro ⟨values, hvalues, -⟩
  cases hvalues with
  | cons h _ =>
    have hvalue := hex_value_iff.mpr h
    revert hvalue
    simp [hexValue, isDigit]

/-- Four characters are a code if they are digits, or if three digits follow a plus sign. -/
theorem char_of_code_iff {a b c d x : Char} : charOfCode a b c d = some x ↔
    Numeral [a, b, c, d] x.toNat ∨ (a = '+' ∧ Numeral [b, c, d] x.toNat) := by
  unfold charOfCode
  split
  · rename_i hplus
    subst hplus
    simp only [Option.bind_eq_bind, Option.bind_eq_some_iff, char_of_number_iff, hex_number_iff,
      exists_eq_right, true_and]
    exact ⟨.inr, fun h => h.resolve_left plus_no_digit⟩
  · rename_i hplus
    simp only [Option.bind_eq_bind, Option.bind_eq_some_iff, char_of_number_iff, hex_number_iff,
      exists_eq_right, hplus, false_and, or_false]

end Codes

section Reading

theorem escape_item {e c : Char} (h : charOfEscape e = some c) : Item ['\\', e] c := by
  unfold charOfEscape at h
  split at h <;> cases h <;> constructor

/-- Four characters after `\u` that are a code are read as the character they name. -/
theorem read_of_code {a b c d x : Char} (h : charOfCode a b c d = some x) (rest : List Char) :
    readQuoted ('\\' :: 'u' :: a :: b :: c :: d :: rest) = (readQuoted rest).map (x :: ·) := by
  rw [readQuoted, h]

/-- An item is read as the character that it denotes, whatever follows. -/
theorem read_item {t : List Char} {c : Char} (h : ReadableItem t c) (rest : List Char) :
    readQuoted (t ++ rest) = (readQuoted rest).map (c :: ·) := by
  cases h with
  | item h =>
    cases h with
    | plain hq hb => exact read_plain hq hb rest
    | code four h =>
      obtain ⟨a, b, c, d, rfl⟩ := List.length_eq_four.mp four
      exact read_of_code (char_of_code_iff.mpr (.inl h)) rest
    | _ => exact read_letter rfl rest
  | signed three h =>
    obtain ⟨b, c, d, rfl⟩ := List.length_eq_three.mp three
    exact read_of_code (char_of_code_iff.mpr (.inr ⟨rfl, h⟩)) rest

theorem read_denoted {body s : List Char} (h : Denotes ReadableItem body s) :
    readQuoted (body ++ ['"']) = .ok s := by
  induction h with
  | nil => rfl
  | cons first _ ih => rw [List.append_assoc, read_item first, ih, map_ok]

/-- A code that is read is an item. -/
theorem code_item {a b c d x : Char} (h : charOfCode a b c d = some x) :
    ReadableItem ['\\', 'u', a, b, c, d] x := by
  rcases char_of_code_iff.mp h with hdigits | ⟨rfl, hdigits⟩
  · exact .item (.code rfl hdigits)
  · exact .signed rfl hdigits

/-- Text that is read up to the closing quotation mark, as items. -/
def Closes (cs s : List Char) : Prop :=
  ∃ body, cs = body ++ ['"'] ∧ Denotes ReadableItem body s

theorem closes_cons {t rest s : List Char} {c : Char} (first : ReadableItem t c)
    (ih : ∀ {s}, readQuoted rest = .ok s → Closes rest s)
    (h : (readQuoted rest).map (c :: ·) = .ok s) : Closes (t ++ rest) s := by
  obtain ⟨s, hrest, rfl⟩ := map_eq_ok.mp h
  obtain ⟨body, rfl, hbody⟩ := ih hrest
  exact ⟨t ++ body, (List.append_assoc ..).symm, .cons first hbody⟩

/-- What is read ends with a quotation mark, and before it there are items only. -/
theorem closes_of_read {cs s : List Char} (h : readQuoted cs = .ok s) : Closes cs s := by
  fun_induction readQuoted cs generalizing s with
  | case1 => cases h
  | case2 rest hrest =>
    cases h
    rw [List.isEmpty_iff.mp hrest]
    exact ⟨[], rfl, .nil⟩
  | case3 => cases h
  | case4 a b c d rest x hx ih => exact closes_cons (code_item hx) ih h
  | case5 => cases h
  | case6 => cases h
  | case7 => cases h
  | case8 e rest _ _ x hx ih => exact closes_cons (.item (escape_item hx)) ih h
  | case9 => cases h
  | case10 c rest hquote _ _ hlast hescape ih =>
    have hplain : c ≠ '\\' := by
      rintro rfl
      cases rest with
      | nil => exact hlast rfl rfl
      | cons e rest => exact hescape e rest rfl rfl
    exact closes_cons (.item (.plain hquote hplain)) ih h

end Reading

/-- A field that starts with a quotation mark is read exactly if it is a quotation of readable items, as the
text that they denote; any other is refused. -/
theorem unquote_reads_quotations (field s : List Char) :
    (unquote ('"' :: field) = .ok s ↔ Quotation ReadableItem ('"' :: field) s) ∧
      ((∃ fault, unquote ('"' :: field) = .error fault) ↔
        ∀ text, ¬Quotation ReadableItem ('"' :: field) text) := by
  have hread (text : List Char) :
      readQuoted field = .ok text ↔ Quotation ReadableItem ('"' :: field) text := by
    constructor
    · intro h
      obtain ⟨body, rfl, hbody⟩ := closes_of_read h
      exact ⟨body, rfl, hbody⟩
    · rintro ⟨body, heq, hbody⟩
      cases heq
      exact read_denoted hbody
  refine ⟨hread s, ?_⟩
  simp only [← hread, unquote]
  cases readQuoted field with
  | ok text => simp
  | error fault => simp

/-- What stands in an item after `\u` begins with a digit. -/
theorem Denotes.code_digit {body s : List Char} (h : Denotes Item body s) {c : Char}
    {rest : List Char} (hbody : body = '\\' :: 'u' :: c :: rest) : ∃ v, HexDigit c v := by
  cases h with
  | nil => cases hbody
  | cons first _ =>
    cases first with
    | code four h =>
      obtain ⟨a, b, c', d, rfl⟩ := List.length_eq_four.mp four
      obtain ⟨values, hvalues, -⟩ := h
      cases hbody
      cases hvalues with
      | cons hc _ => exact ⟨_, hc⟩
    | plain _ hb =>
      cases hbody
      exact absurd rfl hb
    | _ => cases hbody

/-- A code with a sign is read, although it is no quotation of documented items. -/
theorem signed_code_read :
    unquote "\"\\u+041\"".toList = .ok ['A'] ∧
      ∀ s, ¬Quotation Item "\"\\u+041\"".toList s := by
  refine ⟨by decide, ?_⟩
  rintro s ⟨body, hfield, hbody⟩
  have hcut : body = "\\u+041".toList := by
    have hrest : "\\u+041".toList ++ ['"'] = body ++ ['"'] := (List.cons.inj hfield).2
    exact (List.append_cancel_right hrest).symm
  obtain ⟨v, hv⟩ := hbody.code_digit hcut
  exact plus_no_digit ⟨[v], .cons hv .nil, rfl⟩

end DocForms.Text
