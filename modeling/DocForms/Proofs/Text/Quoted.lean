import DocForms.Proofs.Text.Fields

namespace DocForms.Text

theorem hex_value_hex_digit {n : Nat} (h : n < 16) : hexValue (hexDigit n) = some n := by
  have hall : ∀ n < 16, hexValue (hexDigit n) = some n := by decide
  exact hall n h

theorem hex_digit_plain {n : Nat} (h : n < 16) :
    hexDigit n ≠ '"' ∧ hexDigit n ≠ '\\' ∧ isControl (hexDigit n) = false := by
  have hall : ∀ n < 16, hexDigit n ≠ '"' ∧ hexDigit n ≠ '\\' ∧ isControl (hexDigit n) = false := by
    decide
  exact hall n h

theorem char_of_number_to_nat (c : Char) : charOfNumber c.toNat = some c := by
  have hv : c.toNat.isValidChar := c.valid
  rw [charOfNumber, if_pos hv, Char.ofNat_toNat]

theorem control_lt {c : Char} (h : isControl c = true) : c.toNat < 160 := by
  simp only [isControl, Bool.or_eq_true, Bool.and_eq_true, decide_eq_true_eq] at h
  omega

/-- The four digits of a control's escape name it. -/
theorem char_of_code_digits {c : Char} (h : isControl c = true) :
    charOfCode (hexDigit (c.toNat / 4096 % 16)) (hexDigit (c.toNat / 256 % 16))
      (hexDigit (c.toNat / 16 % 16)) (hexDigit (c.toNat % 16)) = some c := by
  have hlt := control_lt h
  have hzero : c.toNat / 4096 % 16 = 0 := by omega
  have hplus : hexDigit (c.toNat / 4096 % 16) ≠ '+' := by
    rw [hzero]
    decide
  have hnumber : hexNumber [hexDigit (c.toNat / 4096 % 16), hexDigit (c.toNat / 256 % 16),
      hexDigit (c.toNat / 16 % 16), hexDigit (c.toNat % 16)] = some c.toNat := by
    simp only [hexNumber, List.foldlM_cons, List.foldlM_nil,
      hex_value_hex_digit (Nat.mod_lt _ (by decide : 0 < 16)), Option.map_some,
      Option.bind_eq_bind, Option.bind_some, Option.pure_def, Option.some.injEq]
    omega
  rw [charOfCode, if_neg hplus, hnumber]
  exact char_of_number_to_nat c

/-- A character is escaped by a letter, by its number, or not at all. -/
theorem escaped_char_cases (c : Char) :
    (∃ e, charOfEscape e = some c ∧ escapedChar c = ['\\', e]) ∨
    (isControl c = true ∧ escapedChar c = '\\' :: 'u' :: codeDigits c) ∨
    (c ≠ '"' ∧ c ≠ '\\' ∧ isControl c = false ∧ escapedChar c = [c]) := by
  unfold escapedChar
  split
  · exact .inl ⟨'"', by simp_all [charOfEscape], rfl⟩
  split
  · exact .inl ⟨'\\', by simp_all [charOfEscape], rfl⟩
  split
  · exact .inl ⟨'n', by simp_all [charOfEscape], rfl⟩
  split
  · exact .inl ⟨'r', by simp_all [charOfEscape], rfl⟩
  split
  · exact .inl ⟨'t', by simp_all [charOfEscape], rfl⟩
  split
  · rename_i hc
    exact .inr (.inl ⟨hc, rfl⟩)
  · rename_i hq hb _ _ _ hc
    exact .inr (.inr ⟨hq, hb, by simpa using hc, rfl⟩)

theorem escape_letter {e c : Char} (h : charOfEscape e = some c) :
    e = '"' ∨ e = '\\' ∨ e = 'n' ∨ e = 'r' ∨ e = 't' := by
  unfold charOfEscape at h
  split at h <;> simp_all

theorem read_letter {e c : Char} (h : charOfEscape e = some c) (rest : List Char) :
    readQuoted ('\\' :: e :: rest) = (readQuoted rest).map (c :: ·) := by
  rcases escape_letter h with rfl | rfl | rfl | rfl | rfl <;>
    (rw [readQuoted] <;> simp_all)

theorem read_code {c : Char} (h : isControl c = true) (rest : List Char) :
    readQuoted ('\\' :: 'u' :: (codeDigits c ++ rest)) = (readQuoted rest).map (c :: ·) := by
  simp only [codeDigits, List.cons_append, List.nil_append]
  rw [readQuoted, char_of_code_digits h]

theorem read_plain {c : Char} (hq : c ≠ '"') (hb : c ≠ '\\') (rest : List Char) :
    readQuoted (c :: rest) = (readQuoted rest).map (c :: ·) := by
  rw [readQuoted]
  · exact hq
  all_goals
    intros
    simp_all

/-- Reading an escaped character gives it back, whatever follows. -/
theorem read_escaped (c : Char) (rest : List Char) :
    readQuoted (escapedChar c ++ rest) = (readQuoted rest).map (c :: ·) := by
  rcases escaped_char_cases c with ⟨e, he, hc⟩ | ⟨hcontrol, hc⟩ | ⟨hq, hb, _, hc⟩
  · rw [hc]
    exact read_letter he rest
  · rw [hc]
    exact read_code hcontrol rest
  · rw [hc]
    exact read_plain hq hb rest

theorem read_quoted_body (s : List Char) : readQuoted (s.flatMap escapedChar ++ ['"']) = .ok s := by
  induction s with
  | nil => rfl
  | cons c cs ih => rw [List.flatMap_cons, List.append_assoc, read_escaped, ih, map_ok]

theorem unquote_quote (s : List Char) : unquote (quote s) = .ok s :=
  read_quoted_body s

theorem unquote_bare {s : List Char} (h : s.head? ≠ some '"') : unquote s = .ok s := by
  unfold unquote
  split
  · simp at h
  · rfl

theorem code_digit {c d : Char} (h : d ∈ codeDigits c) : ∃ n < 16, d = hexDigit n := by
  simp only [codeDigits, List.mem_cons, List.not_mem_nil, or_false] at h
  rcases h with rfl | rfl | rfl | rfl <;> exact ⟨_, Nat.mod_lt _ (by decide), rfl⟩

/-- A text without controls stays on its line. -/
def NoControl (s : List Char) : Prop :=
  ∀ c ∈ s, isControl c = false

theorem NoControl.append {s t : List Char} (hs : NoControl s) (ht : NoControl t) :
    NoControl (s ++ t) := by
  intro c hc
  rcases List.mem_append.mp hc with h | h
  · exact hs c h
  · exact ht c h

theorem NoControl.cons {c : Char} {s : List Char} (hc : isControl c = false) (hs : NoControl s) :
    NoControl (c :: s) := by
  intro d hd
  rcases List.mem_cons.mp hd with rfl | h
  · exact hc
  · exact hs d h

theorem NoControl.join {sep : List Char} {parts : List (List Char)} (hsep : NoControl sep)
    (h : ∀ s ∈ parts, NoControl s) : NoControl (join sep parts) := by
  intro c hc
  rcases mem_join hc with hc | ⟨s, hs, hc⟩
  · exact hsep c hc
  · exact h s hs c hc

theorem escaped_no_control (c : Char) : NoControl (escapedChar c) := by
  rcases escaped_char_cases c with ⟨e, he, hc⟩ | ⟨_, hc⟩ | ⟨_, _, hcontrol, hc⟩
  · rw [hc]
    rcases escape_letter he with rfl | rfl | rfl | rfl | rfl <;> (unfold NoControl; decide)
  · rw [hc]
    refine .cons (by decide) (.cons (by decide) ?_)
    intro d hd
    obtain ⟨n, hn, rfl⟩ := code_digit hd
    exact (hex_digit_plain hn).2.2
  · rw [hc]
    exact .cons hcontrol (by simp [NoControl])

theorem quote_no_control (s : List Char) : NoControl (quote s) := by
  refine .append (.cons (by decide) ?_) (.cons (by decide) (by simp [NoControl]))
  intro x hx
  obtain ⟨c, _, hx⟩ := List.mem_flatMap.mp hx
  exact escaped_no_control c x hx

/-- A scan inside quotation marks is still inside them at the end. -/
def Inside : Quoting → List Char → Prop
  | q, [] => q = .quoted
  | q, c :: cs => q ≠ .plain ∧ Inside (q.next c) cs

theorem Inside.append {q : Quoting} {s t : List Char} (hs : Inside q s) (ht : Inside .quoted t) :
    Inside q (s ++ t) := by
  induction s generalizing q with
  | nil =>
    cases hs
    exact ht
  | cons c cs ih => exact ⟨hs.1, ih hs.2⟩

theorem Inside.hex_digits {digits : List Char} (h : ∀ d ∈ digits, ∃ n < 16, d = hexDigit n) :
    Inside .quoted digits := by
  induction digits with
  | nil => rfl
  | cons d ds ih =>
    refine ⟨by simp, ?_⟩
    obtain ⟨n, hn, rfl⟩ := h d (by simp)
    obtain ⟨hq, hb, _⟩ := hex_digit_plain hn
    rw [next_quoted hq hb]
    exact ih fun d hd => h d (List.mem_cons_of_mem _ hd)

/-- An escaped character leaves a scan inside the quotation marks. -/
theorem escaped_inside (c : Char) : Inside .quoted (escapedChar c) := by
  rcases escaped_char_cases c with ⟨e, _, hc⟩ | ⟨_, hc⟩ | ⟨hq, hb, _, hc⟩
  · rw [hc]
    exact ⟨by simp, by simp [Quoting.next], rfl⟩
  · rw [hc]
    exact ⟨by simp, by simp [Quoting.next], .hex_digits fun d hd => code_digit hd⟩
  · rw [hc]
    refine ⟨by simp, ?_⟩
    rw [next_quoted hq hb]
    rfl

theorem body_inside (s : List Char) : Inside .quoted (s.flatMap escapedChar) := by
  induction s with
  | nil => rfl
  | cons c cs ih =>
    rw [List.flatMap_cons]
    exact (escaped_inside c).append ih

/-- Nothing inside quotation marks ends a field, and the closing one ends the quotation. -/
theorem Inside.one_field {sep : Char} {q : Quoting} {s : List Char} (h : Inside q s) :
    OneField sep q (s ++ ['"']) := by
  induction s generalizing q with
  | nil =>
    cases h
    exact ⟨by simp, rfl⟩
  | cons c cs ih => exact ⟨fun hc => h.1 hc.1, ih h.2⟩

theorem quote_one_field (sep : Char) (s : List Char) : OneField sep .plain (quote s) :=
  ⟨fun h => h.2.1 rfl, (body_inside s).one_field⟩

/-- What a text that needs no quotation marks is like. -/
structure Bare (extra s : List Char) : Prop where
  first : ∃ c cs, s = c :: cs ∧ isBlank c = false ∧ c ≠ '#' ∧ c ≠ '*'
  last : ∃ cs c, s = cs ++ [c] ∧ isBlank c = false
  inner : ∀ c ∈ s, c ≠ '|' ∧ c ≠ '"' ∧ c ≠ '\\' ∧ isControl c = false ∧ c ∉ extra

theorem bare_of_needs_quotes {extra s : List Char} (h : needsQuotes extra s = false) :
    Bare extra s := by
  cases s with
  | nil => simp [needsQuotes] at h
  | cons c cs =>
    simp only [needsQuotes, Bool.or_eq_false_iff, beq_eq_false_iff_ne, List.any_eq_false,
      Bool.or_eq_true, not_or, Bool.not_eq_true, List.contains_eq_mem, decide_eq_false_iff_not]
      at h
    obtain ⟨⟨⟨⟨hfirst, hlast⟩, hhash⟩, hstar⟩, hinner⟩ := h
    refine ⟨⟨c, cs, rfl, hfirst, hhash, hstar⟩, ?_, ?_⟩
    · refine ⟨(c :: cs).dropLast, (c :: cs).getLast (by simp), ?_, ?_⟩
      · exact (List.dropLast_concat_getLast _).symm
      · rwa [List.getLastD_eq_getLast?, List.getLast?_eq_some_getLast (by simp)] at hlast
    · intro d hd
      have := hinner d hd
      simp_all

theorem Bare.not_mem {extra s : List Char} (h : Bare extra s) {c : Char}
    (hc : c = '|' ∨ c = '"' ∨ c ∈ extra) : c ∉ s := by
  intro hm
  obtain ⟨hbar, hquote, _, _, hextra⟩ := h.inner c hm
  rcases hc with hc | hc | hc
  · exact hbar hc
  · exact hquote hc
  · exact hextra hc

/-- Both ways to write a field read back as the text itself. -/
theorem unquote_quote_if {needed : Bool} {s : List Char} (h : needed = false → '"' ∉ s) :
    unquote (quoteIf needed s) = .ok s := by
  cases needed with
  | true => exact unquote_quote s
  | false =>
    apply unquote_bare
    intro hh
    exact h rfl (List.mem_of_mem_head? hh)

end DocForms.Text
