import DocForms.Number.DoubleText
import DocForms.Proofs.Number.Integer
import DocForms.Proofs.Number.Rounding

namespace DocForms.Number
open Text

namespace Magnitude

theorem of_decimal_zero (e : Int) : ofDecimal 0 e = 0 := rfl

theorem five_two_pow (k : Nat) : 5 ^ k * 2 ^ k = 10 ^ k :=
  (Nat.mul_pow 5 2 k).symm

/-- The exact digits of a number read back. -/
theorem exact_decimal_magnitude {m : Magnitude} (hm : m < infinity) :
    m.exactDecimal.magnitude = m := by
  have hunit : 1074 = unitExponent := rfl
  have hneg : ¬(0 : Int) ≤ -1074 := by decide
  have hexp : (-(-1074 : Int)).toNat = unitExponent := rfl
  rw [Decimal.magnitude, exactDecimal, of_decimal_eq, if_neg hneg, hexp, hunit, ofRatio, Nat.pow_eq,
    Nat.mul_assoc, units_in_one_eq, five_two_pow, nearest_units hm (Nat.pow_pos (by decide))]

/-- The digits that are written read back, whether the short search finds them or not. -/
theorem to_decimal_magnitude {m : Magnitude} (hm : m < infinity) (tie : Tie) :
    (m.toDecimal tie).magnitude = m := by
  unfold toDecimal
  cases hs : m.shortest? tie with
  | none => exact exact_decimal_magnitude hm
  | some d =>
    obtain ⟨_, _, hfound⟩ := List.exists_of_findSome?_eq_some hs
    simpa using List.find?_some hfound

end Magnitude

/-- Characters of a run of digits. -/
def Digits (s : List Char) : Prop :=
  ∀ c ∈ s, Text.isDigit c = true

theorem Digits.append {s t : List Char} (hs : Digits s) (ht : Digits t) : Digits (s ++ t) := by
  intro c hc
  rcases List.mem_append.mp hc with h | h
  · exact hs c h
  · exact ht c h

theorem Digits.single {c : Char} (h : Text.isDigit c = true) : Digits [c] :=
  List.forall_mem_singleton.mpr h

theorem digits_zeros (n : Nat) : Digits (List.replicate n '0') := by
  intro c hc
  rw [(List.mem_replicate.mp hc).2]
  decide

/-- What may follow a run of digits: it ends there. -/
def EndsDigits (s : List Char) : Prop :=
  ∀ c ∈ s.head?, Text.isDigit c = false

theorem take_digits {s rest : List Char} (hs : Digits s) (hrest : EndsDigits rest) :
    (s ++ rest).takeWhile Text.isDigit = s ∧ (s ++ rest).dropWhile Text.isDigit = rest := by
  rw [List.takeWhile_append_of_pos hs, List.dropWhile_append_of_pos hs]
  cases rest with
  | nil => simp
  | cons c cs =>
    have hc : Text.isDigit c = false := hrest c rfl
    simp [hc]

namespace Decimal

theorem read_point {whole fraction rest : List Char} (hw : Digits whole) (hne : whole ≠ [])
    (hf : Digits fraction) (hrest : EndsDigits rest) {e : Int} (he : readExponent? rest = some e) :
    read? (whole ++ '.' :: (fraction ++ rest)) =
      some ⟨Nat.ofDigitChars 10 (whole ++ fraction) 0, e - fraction.length⟩ := by
  have hpoint : EndsDigits ('.' :: (fraction ++ rest)) := by
    intro c hc
    cases hc
    decide
  obtain ⟨htake, hdrop⟩ := take_digits hw hpoint
  obtain ⟨hftake, hfdrop⟩ := take_digits hf hrest
  simp [read?, htake, hdrop, hftake, hfdrop, hne, he]

theorem read_exponent_only {whole rest : List Char} (hw : Digits whole) (hne : whole ≠ []) {e : Int}
    (he : readInt? rest = some e) :
    read? (whole ++ 'e' :: rest) = some ⟨Nat.ofDigitChars 10 whole 0, e⟩ := by
  have hends : EndsDigits ('e' :: rest) := by
    intro c hc
    cases hc
    decide
  obtain ⟨htake, hdrop⟩ := take_digits hw hends
  simp [read?, htake, hdrop, hne, readExponent?, he]

/-- The digits of a coefficient are its significant digits and zeros. -/
theorem coefficient_digits (d : Decimal) :
    ∃ z, natText d.coefficient = d.significantDigits ++ List.replicate z '0' := by
  let zeros := (natText d.coefficient).reverse.takeWhile (· == '0')
  have hzeros : zeros.reverse = List.replicate zeros.length '0' := by
    apply List.eq_replicate_iff.mpr
    refine ⟨by simp, ?_⟩
    intro c hc
    simpa using List.all_eq_true.mp List.all_takeWhile c (List.mem_reverse.mp hc)
  have hsplit : zeros ++ (natText d.coefficient).reverse.dropWhile (· == '0') =
      (natText d.coefficient).reverse := List.takeWhile_append_dropWhile
  have hrev := congrArg List.reverse hsplit
  rw [List.reverse_append, List.reverse_reverse, hzeros] at hrev
  exact ⟨zeros.length, hrev.symm⟩

theorem significant_digits (d : Decimal) : Digits d.significantDigits := by
  obtain ⟨z, hz⟩ := d.coefficient_digits
  intro c hc
  apply nat_text_digits d.coefficient
  rw [hz]
  exact List.mem_append_left _ hc

/-- The number that the significant digits stand for. -/
def significand (d : Decimal) : Nat :=
  Nat.ofDigitChars 10 d.significantDigits 0

theorem coefficient_eq {d : Decimal} {z : Nat}
    (hz : natText d.coefficient = d.significantDigits ++ List.replicate z '0') :
    d.coefficient = d.significand * 10 ^ z := by
  have hread : Nat.ofDigitChars 10 (natText d.coefficient) 0 = d.coefficient :=
    Nat.ofDigitChars_ten_toDigits
  rw [hz, Nat.ofDigitChars_append, Nat.ofDigitChars_replicate_zero] at hread
  rw [significand, Nat.mul_comm]
  exact hread.symm

theorem significant_ne_nil {d : Decimal} (hd : d.coefficient ≠ 0) : d.significantDigits ≠ [] := by
  intro hnil
  obtain ⟨z, hz⟩ := d.coefficient_digits
  apply hd
  rw [coefficient_eq hz, significand, hnil, Nat.ofDigitChars_nil, Nat.zero_mul]

/-- The number that the digits of a text with a point in it stand for. -/
theorem magnitude_eq {d : Decimal} {z : Nat}
    (hz : natText d.coefficient = d.significantDigits ++ List.replicate z '0') :
    d.magnitude = .ofDecimal d.significand ((natText d.coefficient).length + d.exponent -
      d.significantDigits.length) := by
  have hlen : ((natText d.coefficient).length : Int) = d.significantDigits.length + z := by
    rw [hz, List.length_append, List.length_replicate]
    omega
  rw [hlen, magnitude, coefficient_eq hz, Magnitude.of_decimal_shift]
  congr 1
  omega

end Decimal

theorem ends_digits_nil : EndsDigits [] := by
  intro c hc
  cases hc

/-- A text with a point in it has digits on both sides, which make up the number in units of the last one. -/
theorem plain_text_parts {digits : List Char} (hd : Digits digits) (hne : digits ≠ []) (point : Int) :
    ∃ whole fraction, plainText digits point = whole ++ '.' :: fraction ∧ Digits whole ∧ whole ≠ [] ∧
      Digits fraction ∧ Magnitude.ofDecimal (Nat.ofDigitChars 10 (whole ++ fraction) 0)
        (-fraction.length) = .ofDecimal (Nat.ofDigitChars 10 digits 0) (point - digits.length) := by
  have hzero : Digits ['0'] := .single (by decide)
  have hlen : 0 < digits.length := List.length_pos_iff.mpr hne
  unfold plainText
  split
  · rename_i hp
    refine ⟨['0'], List.replicate (-point).toNat '0' ++ digits, rfl, hzero, List.cons_ne_nil _ _,
      (digits_zeros _).append hd, ?_⟩
    simp only [Nat.ofDigitChars_append, List.length_append, List.length_replicate,
      Nat.ofDigitChars_replicate_zero]
    congr 1
    omega
  split
  · rename_i hp hle
    refine ⟨digits ++ List.replicate (point.toNat - digits.length) '0', ['0'], rfl,
      hd.append (digits_zeros _), List.append_ne_nil_of_left_ne_nil hne _, hzero, ?_⟩
    rw [List.append_assoc, ← List.replicate_succ', Nat.ofDigitChars_append,
      Nat.ofDigitChars_replicate_zero, Nat.mul_comm, Magnitude.of_decimal_shift]
    congr 1
    simp only [List.length_singleton]
    omega
  · rename_i hp hlt
    refine ⟨digits.take point.toNat, digits.drop point.toNat, rfl,
      fun c hc => hd c (List.mem_of_mem_take hc), ?_, fun c hc => hd c (List.mem_of_mem_drop hc), ?_⟩
    · simp only [ne_eq, List.take_eq_nil_iff, not_or]
      exact ⟨by omega, hne⟩
    · rw [List.take_append_drop, List.length_drop]
      congr 1
      omega

/-- Digits with a point among them read back, with the point where it was put. -/
theorem read_plain_text {digits : List Char} (hd : Digits digits) (hne : digits ≠ []) (point : Int) :
    (Decimal.read? (plainText digits point)).map Decimal.magnitude =
      some (.ofDecimal (Nat.ofDigitChars 10 digits 0) (point - digits.length)) := by
  obtain ⟨whole, fraction, htext, hw, hwne, hf, hvalue⟩ := plain_text_parts hd hne point
  have hread := Decimal.read_point hw hwne hf ends_digits_nil (e := 0) rfl
  rw [List.append_nil] at hread
  rw [htext, hread, Option.map_some, Decimal.magnitude, Int.zero_sub, hvalue]

theorem read_signed {style : DoubleStyle} (e : Int) :
    readInt? (if style.plusSign && 0 ≤ e then '+' :: intText e else intText e) = some e := by
  split
  · rename_i h
    simp only [Bool.and_eq_true, decide_eq_true_eq] at h
    have htext : intText e = natText e.natAbs := by rw [intText, if_neg (by omega)]
    have hsign : splitSign ('+' :: natText e.natAbs) = (false, natText e.natAbs) := rfl
    rw [htext, read_int_of_sign hsign (read_nat_text _), if_neg (by simp)]
    exact congrArg some (by omega)
  · exact read_int_text e

theorem read_scientific_text {digits : List Char} (hd : Digits digits) (hne : digits ≠ [])
    (style : DoubleStyle) (e : Int) :
    (Decimal.read? (scientificText style digits e)).map Decimal.magnitude =
      some (.ofDecimal (Nat.ofDigitChars 10 digits 0) (e + 1 - digits.length)) := by
  unfold scientificText
  generalize hx : (if style.plusSign && 0 ≤ e then '+' :: intText e else intText e) = exponent
  have hexp : readInt? exponent = some e := hx ▸ read_signed e
  cases digits with
  | nil => exact absurd rfl hne
  | cons c cs =>
    have hc : Digits [c] := .single (hd c (by simp))
    cases cs with
    | nil =>
      have hread := Decimal.read_exponent_only hc (by simp) hexp
      simp only [List.take_succ_cons, List.take_zero, List.length_singleton, Nat.le_refl, if_true,
        List.append_nil, hread, Option.map_some, Decimal.magnitude]
      congr 2
      omega
    | cons b bs =>
      have hrest : Digits (b :: bs) := fun x hx => hd x (List.mem_cons_of_mem _ hx)
      have hends : EndsDigits ('e' :: exponent) := by
        intro x hx
        cases hx
        decide
      have hread := Decimal.read_point hc (by simp) hrest hends (e := e) (by
        simp [Decimal.readExponent?, hexp])
      have hmany : ¬(c :: b :: bs).length ≤ 1 := by simp
      rw [if_neg hmany]
      simp only [List.take_succ_cons, List.take_zero, List.drop_succ_cons, List.drop_zero,
        List.cons_append, List.nil_append] at hread ⊢
      rw [hread]
      simp only [Option.map_some, Decimal.magnitude, List.length_cons]
      congr 2
      omega

theorem read_decimal_text (style : DoubleStyle) {d : Decimal} (hd : d.coefficient ≠ 0) :
    (Decimal.read? (d.text style)).map Decimal.magnitude = some d.magnitude := by
  obtain ⟨z, hz⟩ := d.coefficient_digits
  have hne := Decimal.significant_ne_nil hd
  rw [Decimal.magnitude_eq hz, Decimal.text, if_neg hd]
  dsimp only
  split
  · exact read_plain_text d.significant_digits hne _
  · rw [read_scientific_text d.significant_digits hne, Int.sub_add_cancel]
    rfl

/-- An unsigned number with a point or an exponent. -/
structure Numeral (s : List Char) : Prop where
  first : ∃ c cs, s = c :: cs ∧ Text.isDigit c = true
  word : ∀ c ∈ s, isWordChar c = true
  mark : ∃ c ∈ s, Text.isDigit c = false

theorem Digits.word {s : List Char} (h : Digits s) : ∀ c ∈ s, isWordChar c = true :=
  fun c hc => digit_is_word (h c hc)

theorem plain_text_numeral {digits : List Char} (hd : Digits digits) (hne : digits ≠ [])
    (point : Int) : Numeral (plainText digits point) := by
  obtain ⟨whole, fraction, htext, hw, hwne, hf, -⟩ := plain_text_parts hd hne point
  obtain ⟨c, cs, rfl⟩ := List.exists_cons_of_ne_nil hwne
  rw [htext]
  refine ⟨⟨c, _, rfl, hw c (by simp)⟩, ?_, '.', by simp, by decide⟩
  intro x hx
  rcases List.mem_append.mp hx with hx | hx
  · exact hw.word x hx
  rcases List.mem_cons.mp hx with rfl | hx
  · decide
  · exact hf.word x hx

theorem scientific_text_numeral {digits : List Char} (hd : Digits digits) (hne : digits ≠ [])
    (style : DoubleStyle) (e : Int) : Numeral (scientificText style digits e) := by
  obtain ⟨c, cs, rfl⟩ := List.exists_cons_of_ne_nil hne
  unfold scientificText
  refine ⟨⟨c, _, rfl, hd c (by simp)⟩, ?_, 'e', by simp, by decide⟩
  intro x hx
  simp only [List.mem_append, List.mem_cons] at hx
  rcases hx with (hx | hx) | rfl | hx
  · exact hd.word x (List.mem_of_mem_take hx)
  · split at hx
    · cases hx
    · rcases List.mem_cons.mp hx with rfl | hx
      · decide
      · exact hd.word x (List.mem_of_mem_drop hx)
  · decide
  · split at hx
    · exact ((int_text_word e).cons (by decide)).2 x hx
    · exact (int_text_word e).2 x hx

theorem decimal_text_numeral (style : DoubleStyle) {d : Decimal} (hd : d.coefficient ≠ 0) :
    Numeral (d.text style) := by
  have hne := Decimal.significant_ne_nil hd
  rw [Decimal.text, if_neg hd]
  dsimp only
  split
  · exact plain_text_numeral d.significant_digits hne _
  · exact scientific_text_numeral d.significant_digits hne style _

theorem zero_numeral : Numeral "0.0".toList :=
  ⟨⟨'0', ['.', '0'], rfl, by decide⟩, by decide, '.', by decide, by decide⟩

/-- The text of a finite size: a numeral whose digits stand for it. -/
theorem magnitude_text {m : Magnitude} (hm : m < .infinity) (style : DoubleStyle) :
    Numeral (magnitudeText style m) ∧
      (Decimal.read? (magnitudeText style m)).map Decimal.magnitude = some m := by
  unfold magnitudeText
  split
  · rename_i hz
    subst hz
    exact ⟨zero_numeral, by decide⟩
  · rename_i hne
    have hback := Magnitude.to_decimal_magnitude hm style.tie
    have hd : (m.toDecimal style.tie).coefficient ≠ 0 := by
      intro hzero
      rw [Decimal.magnitude, hzero, Magnitude.of_decimal_zero] at hback
      exact hne hback.symm
    refine ⟨decimal_text_numeral style hd, ?_⟩
    rw [read_decimal_text style hd, hback]

/-- A numeral is no name of a number. -/
theorem Numeral.read_magnitude {s : List Char} (h : Numeral s) :
    readMagnitude? s = (Decimal.read? s).map Decimal.magnitude := by
  obtain ⟨c, cs, rfl, hc⟩ := h.first
  have hlower : c.toLower = c := by
    simp only [Text.isDigit, Bool.and_eq_true, decide_eq_true_eq] at hc
    unfold Char.toLower
    rw [dif_neg]
    intro hupper
    have := char_le_iff.mp hc.2
    have : 65 ≤ c.toNat := hupper.1
    simp_all
    omega
  have hi : c ≠ 'i' := by
    rintro rfl
    simp [Text.isDigit] at hc
  have hn : c ≠ 'n' := by
    rintro rfl
    simp [Text.isDigit] at hc
  simp [readMagnitude?, lowerCase, hlower, hi, hn]

theorem Numeral.split_sign {s : List Char} (h : Numeral s) : splitSign s = (false, s) := by
  obtain ⟨c, cs, rfl, hc⟩ := h.first
  exact split_sign_digits hc

/-- A numeral is no integer, with a sign or without. -/
theorem Numeral.not_int {s t : List Char} {negative : Bool} (h : Numeral s)
    (ht : splitSign t = (negative, s)) : readInt64? t = none := by
  obtain ⟨c, hmem, hc⟩ := h.mark
  have hall : s.all Text.isDigit = false := List.all_eq_false.mpr ⟨c, hmem, by simp [hc]⟩
  simp [readInt64?, readInt?, ht, readNat?, hall]

theorem Double.of_parts_eq (x : Double) : .ofParts x.isNegative x.magnitude = x := by
  have hlt := x.bits.toNat_lt
  have hbits : (if x.isNegative then Double.signBit + x.magnitude else x.magnitude) =
      x.bits.toNat := by
    by_cases hneg : Double.signBit ≤ x.bits.toNat
    · rw [Double.isNegative, decide_eq_true hneg, if_pos rfl, Double.magnitude]
      simp only [Double.signBit] at hneg ⊢
      omega
    · rw [Double.isNegative, decide_eq_false hneg, if_neg (by simp), Double.magnitude]
      exact Nat.mod_eq_of_lt (Nat.lt_of_not_le hneg)
  rw [Double.ofParts, hbits, UInt64.ofNat_toNat]

theorem Double.finite_lt {x : Double} (hx : x.isFinite = true) : x.magnitude < Magnitude.infinity :=
  of_decide_eq_true hx

theorem Double.finite_not_nan {x : Double} (hx : x.isFinite = true) : x.isNaN = false :=
  decide_eq_false (Nat.not_lt_of_gt (Double.finite_lt hx))

theorem Numeral.is_word {s : List Char} (h : Numeral s) : Word s := by
  obtain ⟨c, cs, hs, _⟩ := h.first
  exact ⟨by simp [hs], h.word⟩

theorem Numeral.signed {s : List Char} (h : Numeral s) (negative : Bool) :
    Word (if negative then '-' :: s else s) ∧
      splitSign (if negative then '-' :: s else s) = (negative, s) := by
  cases negative with
  | true => exact ⟨h.is_word.cons (by decide), rfl⟩
  | false => exact ⟨h.is_word, h.split_sign⟩

theorem double_text_eq {x : Double} (hx : x.isFinite = true) (style : DoubleStyle) :
    doubleText style x = if x.isNegative then '-' :: magnitudeText style x.magnitude
      else magnitudeText style x.magnitude := by
  simp only [doubleText, Double.finite_not_nan hx, hx, if_true, Bool.false_eq_true, if_false]

/-- A finite number's text: its sign, and a numeral that stands for its size. -/
theorem double_text_parts {x : Double} (hx : x.isFinite = true) (style : DoubleStyle) :
    Word (doubleText style x) ∧
      splitSign (doubleText style x) = (x.isNegative, magnitudeText style x.magnitude) := by
  rw [double_text_eq hx]
  exact (magnitude_text (Double.finite_lt hx) style).1.signed x.isNegative

theorem double_text_word {x : Double} (hx : x.isFinite = true) (style : DoubleStyle) :
    Word (doubleText style x) :=
  (double_text_parts hx style).1

/-- A finite number reads back bit for bit. -/
theorem read_double_text {x : Double} (hx : x.isFinite = true) (style : DoubleStyle) :
    readDouble? (doubleText style x) = some x := by
  obtain ⟨hnum, hread⟩ := magnitude_text (Double.finite_lt hx) style
  rw [readDouble?, (double_text_parts hx style).2]
  dsimp only
  rw [hnum.read_magnitude, hread, Option.map_some, Double.of_parts_eq]

theorem double_text_not_int {x : Double} (hx : x.isFinite = true) (style : DoubleStyle) :
    readInt64? (doubleText style x) = none := by
  exact (magnitude_text (Double.finite_lt hx) style).1.not_int (double_text_parts hx style).2

end DocForms.Number
