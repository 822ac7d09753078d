import DocForms.Number.Double
import Mathlib.Algebra.Order.Ring.Nat
import Mathlib.Tactic.Positivity
import Mathlib.Tactic.Ring

namespace DocForms.Number.Magnitude

/-- The power of two that makes one of a unit. -/
def unitExponent : Nat := 1074

theorem units_in_one_eq : unitsInOne = 2 ^ unitExponent :=
  Nat.one_shiftLeft unitExponent

theorem units_in_one_pos : 0 < unitsInOne :=
  Nat.lt_of_lt_of_eq (Nat.two_pow_pos unitExponent) units_in_one_eq.symm

/-- The weight of the last bit that rounding keeps. -/
def lastStep (num den : Nat) : Nat :=
  den * 2 ^ ((num / den).log2 - 52)

/-- The bits that rounding keeps, before the last of them is settled. -/
def floorBits (num den : Nat) : Nat :=
  ((num / den).log2 - 52) * leadingBit + num / lastStep num den

def RoundsUp (num den : Nat) : Prop :=
  lastStep num den < 2 * (num % lastStep num den) ∨
    (lastStep num den = 2 * (num % lastStep num den) ∧ floorBits num den % 2 = 1)

instance (num den : Nat) : Decidable (RoundsUp num den) :=
  inferInstanceAs (Decidable (_ ∨ _))

theorem nearest_eq (num den : Nat) : nearest num den =
    min infinity (if RoundsUp num den then floorBits num den + 1 else floorBits num den) := by
  simp only [nearest, floorBits, RoundsUp, lastStep, Nat.shiftLeft_eq]
  rfl

/-- A common factor does not matter. -/
theorem nearest_scale {k : Nat} (hk : 0 < k) (num den : Nat) :
    nearest (num * k) (den * k) = nearest num den := by
  have hdiv : num * k / (den * k) = num / den := Nat.mul_div_mul_right num den hk
  have hstep : lastStep (num * k) (den * k) = lastStep num den * k := by
    rw [lastStep, hdiv, lastStep, Nat.mul_right_comm]
  have hfloor : floorBits (num * k) (den * k) = floorBits num den := by
    rw [floorBits, hdiv, hstep, Nat.mul_div_mul_right _ _ hk, floorBits]
  have htwice (a b : Nat) : a * k < 2 * (b * k) ↔ a < 2 * b := by
    rw [← Nat.mul_assoc, Nat.mul_lt_mul_right hk]
  have htie (a b : Nat) : a * k = 2 * (b * k) ↔ a = 2 * b := by
    rw [← Nat.mul_assoc, Nat.mul_left_inj (by omega)]
  have hup : RoundsUp (num * k) (den * k) ↔ RoundsUp num den := by
    rw [RoundsUp, hstep, hfloor, Nat.mul_mod_mul_right, htwice, htie, RoundsUp]
  simp only [nearest_eq, hfloor, hup]

/-- A quotient without rest that has its leading bit in place. -/
theorem nearest_exact {den q s : Nat} (hden : 0 < den) (hs : (q * 2 ^ s).log2 - 52 = s) :
    nearest (q * 2 ^ s * den) den = min infinity (s * leadingBit + q) := by
  have hpos : 0 < den * 2 ^ s := Nat.mul_pos hden (Nat.two_pow_pos s)
  have hnum : q * 2 ^ s * den = q * (den * 2 ^ s) := by
    rw [Nat.mul_assoc, Nat.mul_comm (2 ^ s)]
  have hlog : (q * 2 ^ s * den / den).log2 - 52 = s := by rwa [Nat.mul_div_cancel _ hden]
  have hstep : lastStep (q * 2 ^ s * den) den = den * 2 ^ s := by rw [lastStep, hlog]
  have hfloor : floorBits (q * 2 ^ s * den) den = s * leadingBit + q := by
    rw [floorBits, hlog, hstep, hnum, Nat.mul_div_cancel _ hpos]
  have hdown : ¬RoundsUp (q * 2 ^ s * den) den := by
    rw [RoundsUp, hstep, hnum, Nat.mul_mod_left]
    omega
  rw [nearest_eq, hfloor, if_neg hdown]

theorem scale_eq (m : Nat) : scale m = m / leadingBit - 1 := rfl

theorem significand_eq (m : Nat) :
    significand m = if m < leadingBit then m else leadingBit + m % leadingBit := rfl

/-- The leading bit of a pattern's value tells its scale. -/
theorem log2_units (m : Nat) : (significand m * 2 ^ scale m).log2 - 52 = scale m := by
  rw [scale_eq, significand_eq]
  split
  · rename_i h
    have hscale : m / leadingBit - 1 = 0 := by rw [Nat.div_eq_of_lt h]
    have hlog : m.log2 ≤ 52 := by
      by_cases hz : m = 0
      · rw [hz, Nat.log2_zero]
        omega
      · have := (Nat.log2_lt hz).mpr (show m < 2 ^ 52 from h)
        omega
    rw [hscale, Nat.pow_zero, Nat.mul_one]
    omega
  · have hsig : leadingBit + m % leadingBit < 2 ^ 53 := by
      have := Nat.mod_lt m (show 0 < leadingBit by decide)
      simp only [leadingBit] at this ⊢
      omega
    generalize m / leadingBit - 1 = s
    have hne : (leadingBit + m % leadingBit) * 2 ^ s ≠ 0 :=
      Nat.mul_ne_zero (by simp [leadingBit]) (Nat.ne_of_gt (Nat.two_pow_pos s))
    have hlog : ((leadingBit + m % leadingBit) * 2 ^ s).log2 = 52 + s := by
      rw [Nat.log2_eq_iff hne]
      constructor
      · rw [Nat.pow_add]
        exact Nat.mul_le_mul_right _ (Nat.le_add_right _ _)
      · rw [show 52 + s + 1 = 53 + s by omega, Nat.pow_add]
        exact Nat.mul_lt_mul_of_pos_right hsig (Nat.two_pow_pos s)
    omega

/-- The scale and the significand make up the pattern. -/
theorem scale_significand (m : Nat) : scale m * leadingBit + significand m = m := by
  rw [scale_eq, significand_eq]
  split
  · rename_i h
    rw [Nat.div_eq_of_lt h, Nat.zero_sub, Nat.zero_mul, Nat.zero_add]
  · rename_i h
    have hpos : 1 ≤ m / leadingBit :=
      (Nat.one_le_div_iff (by decide)).mpr (Nat.le_of_not_lt h)
    have hdm := Nat.div_add_mod m leadingBit
    have hmul : (m / leadingBit - 1) * leadingBit + leadingBit = leadingBit * (m / leadingBit) := by
      rw [← Nat.succ_mul, Nat.succ_eq_add_one, Nat.sub_add_cancel hpos, Nat.mul_comm]
    omega

/-- A finite number is the one nearest to its own value. -/
theorem nearest_units {m : Magnitude} (hm : m < infinity) {den : Nat} (hden : 0 < den) :
    nearest (m.units * den) den = m := by
  rw [units, Nat.shiftLeft_eq, nearest_exact hden (log2_units m), scale_significand]
  exact Nat.min_eq_right (Nat.le_of_lt hm)

theorem nearest_small {num den : Nat} (h : 2 * num < den) : nearest num den = 0 := by
  have hquot : num / den = 0 := Nat.div_eq_of_lt (by omega)
  have hrest : num % den = num := Nat.mod_eq_of_lt (by omega)
  have hstep : lastStep num den = den := by
    rw [lastStep, hquot, Nat.log2_zero, Nat.zero_sub, Nat.pow_zero, Nat.mul_one]
  have hfloor : floorBits num den = 0 := by
    rw [floorBits, hstep, hquot, Nat.log2_zero, Nat.zero_sub, Nat.zero_mul]
  have hdown : ¬RoundsUp num den := by
    rw [RoundsUp, hstep, hrest]
    omega
  rw [nearest_eq, hfloor, if_neg hdown]
  rfl

theorem nearest_large {num k : Nat} (hk : 2099 ≤ k) (h : 2 ^ k ≤ num) : nearest num 1 = infinity := by
  have hne : num ≠ 0 := Nat.ne_of_gt (Nat.lt_of_lt_of_le (Nat.two_pow_pos k) h)
  have hlog : k ≤ num.log2 := (Nat.le_log2 hne).mpr h
  have hfloor : infinity ≤ floorBits num 1 := by
    calc infinity = 2047 * leadingBit := by decide
      _ ≤ (num.log2 - 52) * leadingBit := Nat.mul_le_mul_right _ (by omega)
      _ ≤ floorBits num 1 := by
        rw [floorBits, Nat.div_one]
        exact Nat.le_add_right _ _
  rw [nearest_eq]
  apply Nat.min_eq_left
  split
  · exact Nat.le_succ_of_le hfloor
  · exact hfloor

/-- Exponents out of range are settled as rounding settles them. -/
theorem of_decimal_eq (c : Nat) (e : Int) : ofDecimal c e =
    if 0 ≤ e then ofRatio (c * 10 ^ e.toNat) 1 else ofRatio c (10 ^ (-e).toNat) := by
  have hten (k : Nat) : 2 ^ (3 * k) ≤ 10 ^ k := by
    rw [Nat.pow_mul]
    exact Nat.pow_le_pow_left (by decide) k
  unfold ofDecimal
  split
  · subst c
    split
    · rw [Nat.zero_mul, ofRatio, Nat.zero_mul, nearest_small (by decide)]
    · rw [ofRatio, Nat.zero_mul, nearest_small (Nat.pow_pos (by decide))]
  rename_i hc
  split
  · rename_i he
    have hlarge : 2099 ≤ 3 * e.toNat + unitExponent := by
      rw [unitExponent]
      omega
    rw [if_pos (by omega), ofRatio, nearest_large hlarge]
    calc 2 ^ (3 * e.toNat + unitExponent)
        = 1 * 2 ^ (3 * e.toNat) * 2 ^ unitExponent := by rw [Nat.pow_add, Nat.one_mul]
      _ ≤ c * 10 ^ e.toNat * unitsInOne := by
        rw [units_in_one_eq]
        exact Nat.mul_le_mul_right _ (Nat.mul_le_mul (by omega) (hten _))
  split
  · rename_i he
    have hsmall : 1 + (c.log2 + 1 + unitExponent) ≤ 3 * (-e).toNat := by
      rw [unitExponent]
      omega
    rw [if_neg (by omega), ofRatio, nearest_small]
    calc 2 * (c * unitsInOne) < 2 * (2 ^ (c.log2 + 1) * unitsInOne) :=
          Nat.mul_lt_mul_of_pos_left
            (Nat.mul_lt_mul_of_pos_right Nat.lt_log2_self units_in_one_pos) (by decide)
      _ = 2 ^ (1 + (c.log2 + 1 + unitExponent)) := by
        rw [units_in_one_eq, Nat.pow_add 2 1, Nat.pow_add 2 (c.log2 + 1), Nat.pow_one]
      _ ≤ 2 ^ (3 * (-e).toNat) := Nat.pow_le_pow_right (by decide) hsmall
      _ ≤ 10 ^ (-e).toNat := hten _
  · rfl

/-- The digits of a number may be shifted against its exponent. -/
theorem of_decimal_shift (c k : Nat) (e : Int) : ofDecimal (c * 10 ^ k) e = ofDecimal c (e + k) := by
  have hpos (n : Nat) : 0 < 10 ^ n := Nat.pow_pos (by decide)
  rw [of_decimal_eq, of_decimal_eq]
  by_cases he : 0 ≤ e
  · have hexp : (e + k).toNat = k + e.toNat := by omega
    rw [if_pos he, if_pos (by omega), hexp, Nat.pow_add, Nat.mul_assoc]
  by_cases hk : 0 ≤ e + k
  · have hexp : k = (e + k).toNat + (-e).toNat := by omega
    have hsplit : c * 10 ^ k = c * 10 ^ (e + k).toNat * 10 ^ (-e).toNat := by
      rw [Nat.mul_assoc, ← Nat.pow_add, ← hexp]
    rw [if_neg he, if_pos hk, hsplit, ofRatio, ofRatio, Nat.mul_right_comm]
    have := nearest_scale (hpos (-e).toNat) (c * 10 ^ (e + k).toNat * unitsInOne) 1
    rwa [Nat.one_mul] at this
  · have hexp : (-e).toNat = (-(e + k)).toNat + k := by omega
    rw [if_neg he, if_neg hk, hexp, Nat.pow_add, ofRatio, ofRatio, Nat.mul_right_comm,
      nearest_scale (hpos k)]

end DocForms.Number.Magnitude
