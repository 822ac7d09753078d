import DocForms.Json.Outline
import DocForms.Json.Printer
import DocForms.Json.Structure
import DocForms.Proofs.Number.Integer
import DocForms.Proofs.Outcomes

namespace DocForms.Json
open Text Number

theorem hex_digit_value {n : Nat} (h : n < 16) : hexValue (hexDigit n) = some n := by
  have hall : ∀ n < 16, hexValue (hexDigit n) = some n := by decide
  exact hall n h

/-- The four digits of a control character's escape. -/
theorem control_code {c : Char} (h : c.toNat < 0x20) :
    hexNumber ['0', '0', hexDigit (c.toNat / 16), hexDigit (c.toNat % 16)] = some c.toNat := by
  have hhigh := hex_digit_value (show c.toNat / 16 < 16 by omega)
  have hlow := hex_digit_value (show c.toNat % 16 < 16 by omega)
  have hzero : hexValue '0' = some 0 := by decide
  simp only [hexNumber, List.foldlM_cons, List.foldlM_nil, hzero, hhigh, hlow, Option.map_some,
    Option.bind_eq_bind, Option.bind_some, Option.pure_def, Option.some.injEq]
  omega

/-- Every way in which a character is written. -/
inductive Escaped (c : Char) : List Char → Prop
  | short {e : Char} (he : e ≠ 'u') (h : simpleEscape? e = some c) : Escaped c ['\\', e]
  | code (h : c.toNat < 0x20) :
    Escaped c ['\\', 'u', '0', '0', hexDigit (c.toNat / 16), hexDigit (c.toNat % 16)]
  | plain (hquote : c ≠ '"') (hslash : c ≠ '\\') (h : ¬c.toNat < 0x20) : Escaped c [c]

theorem escaped_char (c : Char) : Escaped c (escapedChar c) := by
  rw [escapedChar]
  split
  · rename_i h
    subst h
    exact .short (by decide) rfl
  split
  · rename_i h
    subst h
    exact .short (by decide) rfl
  rename_i hquote hslash
  iterate 5
    split
    · rename_i h
      subst h
      exact .short (by decide) rfl
  split
  · rename_i h
    exact .code h
  · rename_i h
    exact .plain hquote hslash h

/-- One character of a string is taken off the front of a text as it is written. -/
theorem take_escaped (c : Char) (t : List Char) :
    stringText? (escapedChar c ++ t) =
      (stringText? t).map fun (cs, rest) => (escapedChar c ++ cs, rest) := by
  have hc := escaped_char c
  generalize escapedChar c = written at hc
  cases hc with
  | short he h =>
    rw [List.cons_append, List.singleton_append, stringText?]
    · rw [h, if_pos Option.isSome_some]
      rfl
    · exact fun a b c d rest hu => absurd hu he
  | code h =>
    rw [List.cons_append, List.cons_append, List.cons_append, List.cons_append, List.cons_append,
      List.singleton_append, stringText?, control_code h, if_pos Option.isSome_some]
    rfl
  | plain hquote hslash h =>
    rw [List.singleton_append, stringText?, if_neg h]
    · rfl
    · exact hquote
    · exact fun a b c d rest he => absurd he hslash
    · exact fun e rest he => absurd he hslash

/-- One character of a string is read as it was. -/
theorem read_escaped (c : Char) (t : List Char) :
    readStringChar (escapedChar c ++ t) = .ok (some c, t) := by
  have hc := escaped_char c
  generalize escapedChar c = written at hc
  cases hc with
  | short he h =>
    rw [List.cons_append, List.singleton_append, readStringChar]
    · rw [h]
    · exact fun _ hu => he (List.cons.inj hu).1
  | code h =>
    have hnot : isLowSurrogate c.toNat = false ∧ isHighSurrogate c.toNat = false := by
      simp only [isLowSurrogate, isHighSurrogate, Bool.and_eq_false_iff, decide_eq_false_iff_not]
      omega
    simp only [List.cons_append, List.nil_append, readStringChar, readEscapedCode, readCode,
      control_code h, ok_bind, hnot]
    simp [Except.map, pure, Except.pure]
  | plain hquote hslash h =>
    rw [List.singleton_append, readStringChar, if_neg h]
    · exact hquote
    · exact fun rest he => absurd he hslash
    · exact fun he => absurd he hslash

theorem take_string (s : List Char) (rest : List Char) :
    stringText? (s.flatMap escapedChar ++ '"' :: rest) =
      some (s.flatMap escapedChar ++ ['"'], rest) := by
  induction s with
  | nil => rfl
  | cons c cs ih =>
    rw [List.flatMap_cons, List.append_assoc, take_escaped, ih, Option.map_some, List.append_assoc]

theorem read_string (s : List Char) (rest : List Char) (fuel : Nat) (h : s.length < fuel) :
    readString fuel (s.flatMap escapedChar ++ '"' :: rest) = .ok (s, rest) := by
  induction s generalizing fuel with
  | nil =>
    obtain ⟨fuel, rfl⟩ := Nat.exists_eq_add_of_lt h
    rfl
  | cons c cs ih =>
    obtain ⟨fuel, rfl⟩ : ∃ n, fuel = n + 1 := ⟨fuel - 1, by simp at h; omega⟩
    rw [List.length_cons] at h
    rw [readString, List.flatMap_cons, List.append_assoc, read_escaped, ok_bind]
    dsimp only
    rw [ih fuel (by omega)]
    rfl

/-- Nothing is written with fewer characters than it has. -/
theorem length_escaped (s : List Char) : s.length ≤ (s.flatMap escapedChar).length := by
  induction s with
  | nil => exact Nat.le_refl _
  | cons c cs ih =>
    have hc : 0 < (escapedChar c).length := by
      have hc := escaped_char c
      generalize escapedChar c = written at hc
      cases hc <;> simp
    rw [List.flatMap_cons, List.length_append, List.length_cons]
    omega

/-- A string is read back from its text. -/
theorem read_string_text (s : String) : read (String.ofList (stringText s)) = .ok (.string s) := by
  have hlength := length_escaped s.toList
  have hread := read_string s.toList [] (2 * (stringText s).length + 1) (by
    rw [stringText, List.length_append, List.length_cons]
    omega)
  have hvalue : readValue (2 * (stringText s).length + 2) depthLimit (stringText s) =
      .ok (.string s, []) := by
    change (readString (2 * (stringText s).length + 1) (s.toList.flatMap escapedChar ++ ['"'])).map
      (fun (cs, rest) => (Json.string (String.ofList cs), rest)) = _
    rw [hread, map_ok]
    dsimp only
    rw [String.ofList_toList]
  rw [read, String.toList_ofList, readAll, hvalue, ok_bind]
  rfl

theorem last_digit {n : Nat} (h : 10 ≤ n) :
    natText n = natText (n / 10) ++ [Nat.digitChar (n % 10)] :=
  Nat.toDigits_of_base_le (by decide) h

theorem one_digit {n : Nat} (h : n < 10) : natText n = [Nat.digitChar n] :=
  Nat.toDigits_of_lt_base h

/-- A count has no zero in front, unless it is zero. -/
theorem nat_text_first (n : Nat) : natText n = ['0'] ∨ ∃ c cs, natText n = c :: cs ∧ c ≠ '0' := by
  induction n using Nat.strongRecOn with
  | ind n ih =>
    by_cases h : n < 10
    · rw [one_digit h]
      have hall : ∀ d < 10, d = 0 ∨ Nat.digitChar d ≠ '0' := by decide
      rcases hall n h with rfl | hne
      · exact .inl rfl
      · exact .inr ⟨_, _, rfl, hne⟩
    · have hten : 10 ≤ n := by omega
      rw [last_digit hten]
      rcases ih (n / 10) (by omega) with hzero | ⟨c, cs, hcs, hne⟩
      · have hvalue := read_nat_text (n / 10)
        rw [hzero] at hvalue
        have : n / 10 = 0 := (Option.some.inj hvalue).symm
        omega
      · exact .inr ⟨c, cs ++ [Nat.digitChar (n % 10)], by rw [hcs, List.cons_append], hne⟩

/-- The digits of a count that fits 64 bits are gathered without loss. -/
theorem gather_nat_text {n : Nat} (h : n ≤ significandLimit) :
    (natText n).foldl Gathered.addWhole {} = ⟨n, 0, false⟩ := by
  have hdigit : ∀ d < 10, digitValue (Nat.digitChar d) = d := by decide
  have hadd {m d : Nat} (hd : d < 10) (hm : 10 * m + d ≤ significandLimit) :
      Gathered.addWhole ⟨m, 0, false⟩ (Nat.digitChar d) = ⟨10 * m + d, 0, false⟩ := by
    rw [Gathered.addWhole, hdigit d hd]
    simp [Nat.not_lt.mpr hm]
  induction n using Nat.strongRecOn with
  | ind n ih =>
    by_cases hn : n < 10
    · rw [one_digit hn]
      have := hadd (m := 0) hn (by omega)
      rwa [Nat.mul_zero, Nat.zero_add] at this
    · rw [last_digit (by omega), List.foldl_append, ih (n / 10) (by omega) (by omega)]
      have hsum : 10 * (n / 10) + n % 10 = n := Nat.div_add_mod n 10
      have := hadd (m := n / 10) (Nat.mod_lt n (by decide)) (by omega)
      rwa [hsum] at this

/-- The digits of a text that is nothing but a count. -/
theorem nat_text_span (n : Nat) :
    (natText n).takeWhile isDigit = natText n ∧ (natText n).dropWhile isDigit = [] := by
  have hdigits := nat_text_digits n
  have htake : (natText n ++ []).takeWhile isDigit = natText n ++ [] :=
    List.takeWhile_append_of_pos hdigits
  have hdrop : (natText n ++ []).dropWhile isDigit = [] := List.dropWhile_append_of_pos hdigits
  rw [List.append_nil] at htake hdrop
  exact ⟨htake, hdrop⟩

theorem number_nat_text (n : Nat) : isNumberText (natText n) = true := by
  obtain ⟨htake, hdrop⟩ := nat_text_span n
  have hdigits := nat_text_digits n
  have hminus : isNumberText.splitMinus (natText n) = natText n := by
    rcases nat_text_first n with h | ⟨c, cs, h, -⟩
    · rw [h]
      rfl
    · rw [h] at hdigits ⊢
      rw [isNumberText.splitMinus]
      rintro rest ⟨⟩
      exact absurd (hdigits '-' (by simp)) (by decide)
  rw [isNumberText, hminus, htake, hdrop]
  rcases nat_text_first n with h | ⟨c, cs, h, hne⟩
  · rw [h]
    rfl
  · rw [h]
    split
    · rename_i heq
      cases heq
    · rename_i heq
      cases heq
      exact absurd rfl hne
    · rfl

theorem read_digits_text {negative : Bool} {n : Nat} (h : n ≤ significandLimit) :
    readUnsigned negative (natText n) = .ok (integerNumber negative n, []) := by
  obtain ⟨htake, hdrop⟩ := nat_text_span n
  have hgather := gather_nat_text h
  rw [readUnsigned, htake, hdrop]
  rcases nat_text_first n with hzero | ⟨c, cs, hcs, hne⟩
  · rw [hzero] at hgather ⊢
    dsimp only
    rw [hgather]
    rfl
  · rw [hcs] at hgather ⊢
    split
    · rename_i heq
      cases heq
    · rename_i heq
      cases heq
      exact absurd rfl hne
    · dsimp only
      rw [hgather]
      rfl

theorem digit_not_space {c : Char} (h : isDigit c = true) : isSpace c = false := by
  rw [Bool.eq_false_iff]
  intro hspace
  simp only [isSpace, Bool.or_eq_true, beq_iff_eq] at hspace
  rcases hspace with ((rfl | rfl) | rfl) | rfl <;> exact absurd h (by decide)

/-- A number begins with its sign or a digit. -/
theorem number_first {s t : List Char} {n : JsonNumber} (h : readNumber s = .ok (n, t)) :
    ∃ c cs, s = c :: cs ∧ (c = '-' ∨ isDigit c = true) := by
  cases s with
  | nil => cases h
  | cons c cs =>
    refine ⟨c, cs, rfl, ?_⟩
    by_cases hc : c = '-'
    · exact .inl hc
    rw [readNumber] at h
    · cases hdigit : isDigit c with
      | true => exact .inr rfl
      | false => simp [readUnsigned, hdigit, refuse] at h
    · exact fun _ heq => hc (List.cons.inj heq).1

/-- What is read as a number is read as a value. -/
theorem read_value_number {fuel depth : Nat} {s rest : List Char} {n : JsonNumber}
    (h : readNumber s = .ok (n, rest)) : readValue (fuel + 1) depth s = .ok (.number n, rest) := by
  obtain ⟨c, cs, rfl, hc⟩ := number_first h
  have hspace : isSpace c = false := by
    rcases hc with rfl | hc
    · rfl
    · exact digit_not_space hc
  have hskip : skipSpace (c :: cs) = c :: cs := List.dropWhile_cons_of_neg (by simp [hspace])
  rw [readValue, hskip]
  split
  case h_8 heq =>
    cases heq
    rw [if_pos hc, h]
    rfl
  all_goals
    rename_i heq
    cases heq <;> exact absurd hc (by decide)

/-- A count is read back from its text. -/
theorem read_nat_value {n : Nat} (h : n ≤ significandLimit) :
    read (String.ofList (natText n)) = .ok (.ofNat n) := by
  have hnumber : readNumber (natText n) = .ok (.int n, []) := by
    obtain ⟨c, cs, hcs, hc⟩ := nat_text_begins n
    rw [readNumber, read_digits_text h]
    · rfl
    · rintro rest hminus
      rw [hcs] at hminus
      cases hminus
      exact absurd hc (by decide)
  have hvalue : readValue (2 * (natText n).length + 2) depthLimit (natText n) = .ok (.ofNat n, []) :=
    read_value_number hnumber
  rw [read, String.toList_ofList, readAll, hvalue, ok_bind]
  rfl

end DocForms.Json
