import DocForms.Proofs.Json.Outlines

namespace DocForms.Json
open Text Number

/-- The text of the number is read as the number. -/
def ReadsBack (n : JsonNumber) : Prop :=
  readNumber (numberText n) = .ok (n, [])

instance (n : JsonNumber) : Decidable (ReadsBack n) :=
  inferInstanceAs (Decidable (_ = _))

section Following
variable {negative : Bool} {g : Gathered} {n : JsonNumber} {s rest : List Char}
  (hrest : EndsNumber rest)
include hrest

theorem EndsNumber.head_ne {c : Char} (hc : isNumberMark c = true) (cs : List Char) :
    rest ≠ c :: cs := by
  rintro rfl
  rw [hrest c rfl] at hc
  cases hc

theorem EndsNumber.append_ne {c : Char} (hc : isNumberMark c = true) (hs : ∀ cs, s ≠ c :: cs)
    (cs : List Char) : s ++ rest ≠ c :: cs := by
  cases s with
  | nil => exact hrest.head_ne hc cs
  | cons d ds =>
    rintro ⟨⟩
    exact hs ds rfl

theorem take_digits :
    (s ++ rest).takeWhile isDigit = s.takeWhile isDigit ∧
      (s ++ rest).dropWhile isDigit = s.dropWhile isDigit ++ rest := by
  induction s with
  | nil =>
    cases rest with
    | nil => exact ⟨rfl, rfl⟩
    | cons c cs =>
      have hc : isDigit c = false := by
        have hmark := hrest c rfl
        simp only [isNumberMark, Bool.or_eq_false_iff] at hmark
        exact hmark.1.1.1.1.1
      simp [hc]
  | cons c cs ih =>
    cases hc : isDigit c <;> simp [hc, ih]

omit hrest in
theorem split_sign_append (hs : s ≠ []) :
    splitSign (s ++ rest) = ((splitSign s).1, (splitSign s).2 ++ rest) := by
  cases s with
  | nil => exact absurd rfl hs
  | cons c cs =>
    by_cases hminus : c = '-'
    · rw [hminus]
      rfl
    by_cases hplus : c = '+'
    · rw [hplus]
      rfl
    have hplain (t : List Char) : splitSign (c :: t) = (false, c :: t) := by
      rw [splitSign]
      · exact fun _ ht => hminus (List.cons.inj ht).1
      · exact fun _ ht => hplus (List.cons.inj ht).1
    rw [List.cons_append, hplain, hplain]
    rfl

theorem read_exponent_append (h : readExponent negative g s = .ok (n, [])) :
    readExponent negative g (s ++ rest) = .ok (n, rest) := by
  have hs : s ≠ [] := by
    rintro rfl
    cases h
  obtain ⟨htake, hdrop⟩ := take_digits (s := (splitSign s).2) hrest
  rw [readExponent, split_sign_append hs]
  rw [readExponent] at h
  generalize splitSign s = split at h htake hdrop ⊢
  obtain ⟨downward, body⟩ := split
  simp only [htake, hdrop] at h ⊢
  split at h
  · cases h
  rename_i hdigits
  rw [if_neg hdigits]
  split at h
  all_goals
    rename_i hlimit
    simp only [hlimit, if_true, if_false]
    split at h
    · rename_i m hm
      obtain ⟨hn, hnil⟩ := Prod.mk.inj (Except.ok.inj h)
      simp only [hm, hn, hnil, List.nil_append]
    · cases h

theorem read_scaled_append (h : readScaled negative g s = .ok (n, [])) :
    readScaled negative g (s ++ rest) = .ok (n, rest) := by
  rw [readScaled.eq_def] at h
  split at h
  · exact read_exponent_append hrest h
  · exact read_exponent_append hrest h
  · split at h
    · rename_i m hm
      obtain ⟨hn, rfl⟩ := Prod.mk.inj (Except.ok.inj h)
      rw [List.nil_append, readScaled, hm]
      · dsimp only
        rw [hn]
      · exact hrest.head_ne rfl
      · exact hrest.head_ne rfl
    · cases h

theorem read_unsigned_append (h : readUnsigned negative s = .ok (n, [])) :
    readUnsigned negative (s ++ rest) = .ok (n, rest) := by
  obtain ⟨htake, hdrop⟩ := take_digits (s := s) hrest
  rw [readUnsigned] at h ⊢
  rw [htake, hdrop]
  split at h
  · cases h
  · cases h
  rename_i hnonempty hzero
  generalize s.dropWhile isDigit = tail at h ⊢
  dsimp only at h ⊢
  split at h
  · rename_i fraction
    split at h
    · cases h
    rename_i hdigits
    obtain ⟨htake', hdrop'⟩ := take_digits (s := fraction) hrest
    simp only [List.cons_append, htake', hdrop']
    rw [if_neg hdigits]
    exact read_scaled_append hrest h
  · exact read_scaled_append hrest h
  · exact read_scaled_append hrest h
  · rename_i hpoint hlower hupper
    split
    · rename_i heq
      exact absurd heq (hrest.append_ne rfl hpoint _)
    · rename_i heq
      exact absurd heq (hrest.append_ne rfl hlower _)
    · rename_i heq
      exact absurd heq (hrest.append_ne rfl hupper _)
    split at h
    · rename_i hfull
      rw [if_pos hfull]
      exact read_scaled_append hrest h
    · rename_i hfull
      obtain ⟨hn, hnil⟩ := Prod.mk.inj (Except.ok.inj h)
      rw [if_neg hfull, hn, hnil, List.nil_append]

/-- A number is taken off the front of a text that goes on with something else. -/
theorem read_number_append (h : readNumber s = .ok (n, [])) :
    readNumber (s ++ rest) = .ok (n, rest) := by
  rw [readNumber.eq_def] at h
  split at h
  · exact read_unsigned_append hrest h
  · rename_i hminus
    rw [readNumber, read_unsigned_append hrest h]
    exact hrest.append_ne rfl hminus

end Following

/-- Every integer of 64 bits is one that its text is read as. -/
theorem reads_back_int64 (n : Int64) : ReadsBack (.int n.toInt) := by
  have hlow := Int64.le_toInt n
  have hhigh := Int64.toInt_lt n
  rw [ReadsBack, numberText, intText]
  split
  · rename_i hneg
    have hlimit : n.toInt.natAbs ≤ significandLimit := by
      rw [significandLimit]
      omega
    have hinteger : integerNumber true n.toInt.natAbs = .int n.toInt := by
      rw [integerNumber, Bool.not_true, if_neg Bool.false_ne_true, if_neg (by omega)]
      congr 1
      omega
    rw [readNumber, read_digits_text hlimit, hinteger]
  · rename_i hpos
    have hlimit : n.toInt.natAbs ≤ significandLimit := by
      rw [significandLimit]
      omega
    have hinteger : integerNumber false n.toInt.natAbs = .int n.toInt := by
      rw [integerNumber, Bool.not_false, if_pos rfl]
      congr 1
      omega
    rw [readNumber, read_digits_text hlimit, hinteger]
    intro cs hcs
    exact absurd (nat_text_digits n.toInt.natAbs '-' (by simp [hcs])) (by decide)

end DocForms.Json
