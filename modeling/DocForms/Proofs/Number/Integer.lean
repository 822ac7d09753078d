import DocForms.Number.Base62
import DocForms.Number.Integer
import DocForms.Proofs.Text.Words

namespace DocForms.Number
open Text

theorem digit_of_core {c : Char} (h : c.isDigit = true) : Text.isDigit c = true := by
  simp only [Char.isDigit, Bool.and_eq_true, decide_eq_true_eq, ge_iff_le] at h
  simp only [Text.isDigit, Bool.and_eq_true, decide_eq_true_eq]
  exact h

theorem nat_text_digits (n : Nat) : ∀ c ∈ natText n, Text.isDigit c = true :=
  fun _ hc => digit_of_core (Nat.isDigit_of_mem_toDigits (by decide) (by decide) hc)

theorem nat_text_ne_nil (n : Nat) : natText n ≠ [] :=
  Nat.toDigits_ne_nil

theorem nat_text_begins (n : Nat) : ∃ c cs, natText n = c :: cs ∧ Text.isDigit c = true := by
  obtain ⟨c, cs, hcs⟩ := List.exists_cons_of_ne_nil (nat_text_ne_nil n)
  exact ⟨c, cs, hcs, nat_text_digits n c (by simp [hcs])⟩

theorem nat_text_word (n : Nat) : Word (natText n) :=
  ⟨nat_text_ne_nil n, fun c hc => digit_is_word (nat_text_digits n c hc)⟩

theorem read_digits {s : List Char} (hne : s ≠ []) (hs : ∀ c ∈ s, Text.isDigit c = true) :
    readNat? s = some (Nat.ofDigitChars 10 s 0) := by
  have hall : s.all Text.isDigit = true := List.all_eq_true.mpr hs
  simp [readNat?, hne, hall]

theorem read_nat_text (n : Nat) : readNat? (natText n) = some n := by
  rw [read_digits (nat_text_ne_nil n) (nat_text_digits n), natText, Nat.ofDigitChars_ten_toDigits]

/-- Digits bear no sign. -/
theorem split_sign_digits {c : Char} {s : List Char} (h : Text.isDigit c = true) :
    splitSign (c :: s) = (false, c :: s) := by
  unfold splitSign
  split
  · rename_i heq
    cases heq
    simp [Text.isDigit] at h
  · rename_i heq
    cases heq
    simp [Text.isDigit] at h
  · rfl

theorem split_sign_nat_text (n : Nat) : splitSign (natText n) = (false, natText n) := by
  have hd := nat_text_digits n
  cases hs : natText n with
  | nil => exact absurd hs (nat_text_ne_nil n)
  | cons c cs =>
    rw [hs] at hd
    exact split_sign_digits (hd c (by simp))

theorem read_int_of_sign {s digits : List Char} {negative : Bool} {n : Nat}
    (hs : splitSign s = (negative, digits)) (hn : readNat? digits = some n) :
    readInt? s = some (if negative then -(n : Int) else n) := by
  simp [readInt?, hs, hn]

theorem read_int_text (n : Int) : readInt? (intText n) = some n := by
  unfold intText
  split
  · have hsign : splitSign ('-' :: natText n.natAbs) = (true, natText n.natAbs) := rfl
    rw [read_int_of_sign hsign (read_nat_text _), if_pos rfl]
    exact congrArg some (by omega)
  · rw [read_int_of_sign (split_sign_nat_text _) (read_nat_text _), if_neg (by simp)]
    exact congrArg some (by omega)

theorem read_int64_text (n : Int64) : readInt64? (int64Text n) = some n := by
  have hrange : Int64.minValue.toInt ≤ n.toInt ∧ n.toInt ≤ Int64.maxValue.toInt :=
    ⟨n.minValue_le_toInt, n.toInt_le⟩
  rw [readInt64?, int64Text, read_int_text, Option.bind_some, int64?, if_pos hrange,
    Int64.ofInt_toInt]

theorem int_text_word (n : Int) : Word (intText n) := by
  unfold intText
  split
  · exact (nat_text_word _).cons (by decide)
  · exact nat_text_word _

namespace Base62

theorem digit_value_digit_char {d : Nat} (h : d < 62) : digitValue? (digitChar d) = some d := by
  have hall : ∀ d < 62, digitValue? (digitChar d) = some d := by decide
  exact hall d h

theorem digit_char_is_word {d : Nat} (h : d < 62) : isWordChar (digitChar d) = true := by
  have hall : ∀ d < 62, isWordChar (digitChar d) = true := by decide
  exact hall d h

theorem digits_up_lt (n : Nat) : ∀ d ∈ digitsUp n, d < 62 := by
  induction n using Nat.strongRecOn with
  | ind n ih =>
    rw [digitsUp]
    split
    · simp
    · intro d hd
      rcases List.mem_cons.mp hd with rfl | hd
      · exact Nat.mod_lt n (by decide)
      · exact ih (n / 62) (by omega) d hd

/-- The digits of a number that fits are read back one by one, none of them too many. -/
theorem read_digits_up {n : Nat} (h : n < 0x8000000000000000) :
    ((digitsUp n).reverse.map digitChar).foldlM push 0 = some n := by
  induction n using Nat.strongRecOn with
  | ind n ih =>
    rw [digitsUp]
    split
    · subst n
      rfl
    · have hfirst := ih (n / 62) (by omega) (by omega)
      have hvalue : 62 * (n / 62) + n % 62 = n := Nat.div_add_mod n 62
      rw [List.reverse_cons, List.map_append, List.foldlM_append, hfirst]
      simp only [List.map_cons, List.map_nil, List.foldlM_cons, List.foldlM_nil, bind_pure,
        Option.bind_eq_bind, Option.bind_some, push,
        digit_value_digit_char (Nat.mod_lt n (by decide : 0 < 62)), hvalue, if_pos h]

theorem digits_up_ne_nil {n : Nat} (h : n ≠ 0) : digitsUp n ≠ [] := by
  rw [digitsUp]
  simp [h]

theorem encode_some {n : Int64} (h : 0 ≤ n) :
    ∃ s, encode n = some s ∧ Word s ∧ decode s = some n := by
  have hnat : 0 ≤ n.toInt := by simpa [Int64.le_iff_toInt_le] using h
  have hlt : n.toInt.toNat < 0x8000000000000000 := by
    have := n.toInt_lt
    omega
  have hback : Int64.ofNat n.toInt.toNat = n := by
    rw [← Int64.ofInt_eq_ofNat, Int.toNat_of_nonneg hnat, Int64.ofInt_toInt]
  rw [encode, if_neg (Int64.not_lt.mpr h)]
  split
  · rename_i hzero
    subst n
    exact ⟨['0'], rfl, ⟨by simp, by decide⟩, by decide⟩
  · rename_i hne
    have hpos : n.toInt.toNat ≠ 0 := by
      intro hz
      rw [hz] at hback
      exact hne hback.symm
    refine ⟨_, rfl, ⟨by simpa using digits_up_ne_nil hpos, ?_⟩, ?_⟩
    · intro c hc
      obtain ⟨d, hd, rfl⟩ := List.mem_map.mp hc
      exact digit_char_is_word (digits_up_lt _ d (List.mem_reverse.mp hd))
    · have hne' : (digitsUp n.toInt.toNat).reverse.map digitChar ≠ [] := by
        simpa using digits_up_ne_nil hpos
      rw [decode, List.isEmpty_eq_false_iff.mpr hne', read_digits_up hlt]
      exact congrArg some hback

end Base62
end DocForms.Number
