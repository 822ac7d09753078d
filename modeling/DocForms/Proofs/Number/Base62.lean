import DocForms.Proofs.Number.Integer
import Mathlib.Data.Nat.Digits.Lemmas

namespace DocForms.Number.Base62

/-- The digits, in the order of their values. -/
def alphabet : List Char :=
  "0123456789ABCDEFGHIJKLMNOPQRSTUVWXYZabcdefghijklmnopqrstuvwxyz".toList

def placeOf (c : Char) : Nat :=
  alphabet.idxOf c

/-- What characters are worth as digits, most significant first. -/
def positional (s : List Char) : Nat :=
  Nat.ofDigits 62 (s.reverse.map placeOf)

/-- A numeral: one digit at least and nothing but digits, with the number that it denotes. -/
structure Denotes (s : List Char) (n : Int) : Prop where
  ne_nil : s ≠ []
  digits : ∀ c ∈ s, c ∈ alphabet
  value : positional s = n

/-- No zero stands in front, unless it is all there is. -/
def Unpadded (s : List Char) : Prop :=
  s = ['0'] ∨ s.head? ≠ some '0'

section Digits

/-- What has a value is a digit, and the digit of that value. -/
theorem digit_of_value {c : Char} {d : Nat} (h : digitValue? c = some d) :
    d < 62 ∧ digitChar d = c := by
  have hlt : c.toNat < 123 := by
    by_contra hge
    have hz : ¬c ≤ 'z' := fun hle => hge (Nat.lt_succ_of_le (Text.char_le_iff.mp hle))
    have hZ : ¬c ≤ 'Z' := fun hle => hz (Char.le_trans hle (by decide))
    have h9 : ¬c ≤ '9' := fun hle => hz (Char.le_trans hle (by decide))
    simp [digitValue?, Text.isDigit, h9, hZ, hz] at h
  -- the digits are among the first characters, which are looked through one by one
  have hall : ∀ n < 123, ∀ d ∈ digitValue? (Char.ofNat n), d < 62 ∧ digitChar d = Char.ofNat n := by
    decide
  rw [← Char.ofNat_toNat c] at h ⊢
  exact hall _ hlt d h

theorem place_digit_char {d : Nat} (h : d < 62) :
    digitChar d ∈ alphabet ∧ placeOf (digitChar d) = d := by
  have hall : ∀ d < 62, digitChar d ∈ alphabet ∧ placeOf (digitChar d) = d := by decide
  exact hall d h

theorem digit_char_place {c : Char} (h : c ∈ alphabet) : digitChar (placeOf c) = c := by
  have hall : ∀ c ∈ alphabet, digitChar (placeOf c) = c := by decide
  exact hall c h

theorem place_lt {c : Char} (h : c ∈ alphabet) : placeOf c < 62 :=
  List.idxOf_lt_length_of_mem h

theorem digit_value_iff {c : Char} {d : Nat} :
    digitValue? c = some d ↔ c ∈ alphabet ∧ placeOf c = d := by
  constructor
  · intro h
    obtain ⟨hlt, rfl⟩ := digit_of_value h
    exact place_digit_char hlt
  · rintro ⟨hc, rfl⟩
    have hvalue := digit_value_digit_char (place_lt hc)
    rwa [digit_char_place hc] at hvalue

end Digits

section Reading

theorem positional_cons (c : Char) (s : List Char) :
    positional (c :: s) = placeOf c * 62 ^ s.length + positional s := by
  rw [positional, List.reverse_cons, List.map_append, List.map_singleton, Nat.ofDigits_append,
    Nat.ofDigits_singleton, List.length_map, List.length_reverse, Nat.add_comm, Nat.mul_comm,
    ← positional]

theorem push_iff {m n : Nat} {c : Char} : push m c = some n ↔
    c ∈ alphabet ∧ n = 62 * m + placeOf c ∧ n < 0x8000000000000000 := by
  simp only [push, Option.bind_eq_bind, Option.bind_eq_some_iff, digit_value_iff,
    Option.ite_none_right_eq_some, Option.some.injEq]
  constructor
  · rintro ⟨d, ⟨hc, rfl⟩, hlt, rfl⟩
    exact ⟨hc, rfl, hlt⟩
  · rintro ⟨hc, rfl, hlt⟩
    exact ⟨_, ⟨hc, rfl⟩, hlt, rfl⟩

/-- Digits are read after a number that fits as long as the number that they make with it fits; that each
number on the way fits follows, as none is larger than the last one. -/
theorem read_from_iff {m n : Nat} (hm : m < 0x8000000000000000) {s : List Char} :
    s.foldlM push m = some n ↔ (∀ c ∈ s, c ∈ alphabet) ∧
      n = m * 62 ^ s.length + positional s ∧ n < 0x8000000000000000 := by
  induction s generalizing m with
  | nil =>
    simp only [List.foldlM_nil, Option.pure_def, Option.some.injEq, List.length_nil, positional]
    constructor
    · rintro rfl
      simpa using hm
    · rintro ⟨-, rfl, -⟩
      simp
  | cons c cs ih =>
    have hshift (k : Nat) : (62 * m + placeOf c) * 62 ^ cs.length + k =
        m * 62 ^ (c :: cs).length + (placeOf c * 62 ^ cs.length + k) := by
      rw [List.length_cons, Nat.pow_succ]
      ring
    simp only [List.foldlM_cons, Option.bind_eq_bind, Option.bind_eq_some_iff, push_iff,
      List.forall_mem_cons, positional_cons]
    constructor
    · rintro ⟨_, ⟨hc, rfl, hlt⟩, hrest⟩
      obtain ⟨hcs, rfl, hn⟩ := (ih hlt).mp hrest
      exact ⟨⟨hc, hcs⟩, hshift _, hn⟩
    · rintro ⟨⟨hc, hcs⟩, hn, hlt⟩
      rw [← hshift] at hn
      have hle : 62 * m + placeOf c ≤ n := by
        rw [hn]
        exact Nat.le_add_right_of_le (Nat.le_mul_of_pos_right _ (by positivity))
      have hfirst := Nat.lt_of_le_of_lt hle hlt
      exact ⟨_, ⟨hc, rfl, hfirst⟩, (ih hfirst).mpr ⟨hcs, hn, hlt⟩⟩

/-- Reading gives the number that is denoted, if it fits. -/
theorem decode_iff {s : List Char} {n : Int64} : decode s = some n ↔ Denotes s n.toInt := by
  have hread {k : Nat} : s.foldlM push 0 = some k ↔
      (∀ c ∈ s, c ∈ alphabet) ∧ k = positional s ∧ k < 0x8000000000000000 := by
    rw [read_from_iff (by decide), Nat.zero_mul, Nat.zero_add]
  have hint {k : Nat} (hk : k < 0x8000000000000000) : (Int64.ofNat k).toInt = k := by
    rw [← Int64.ofInt_eq_ofNat]
    exact Int64.toInt_ofInt_of_le (by omega) (by omega)
  rw [decode]
  constructor
  · intro h
    split at h
    · cases h
    · rename_i hne
      obtain ⟨k, hk, rfl⟩ := Option.map_eq_some_iff.mp h
      obtain ⟨hdigits, rfl, hlt⟩ := hread.mp hk
      exact ⟨by simpa using hne, hdigits, (hint hlt).symm⟩
  · rintro ⟨hne, hdigits, hvalue⟩
    have hlt : positional s < 0x8000000000000000 := by
      have := n.toInt_lt
      omega
    rw [List.isEmpty_eq_false_iff.mpr hne, hread.mpr ⟨hdigits, rfl, hlt⟩]
    refine congrArg some (Int64.toInt_inj.mp ?_)
    rw [hint hlt, hvalue]

end Reading

section Writing

theorem digits_up_eq (n : Nat) : digitsUp n = Nat.digits 62 n := by
  induction n using Nat.strongRecOn with
  | ind n ih =>
    rw [digitsUp]
    split
    · subst n
      rfl
    · rename_i hne
      rw [ih (n / 62) (by omega)]
      exact (Nat.digits_def' (by decide) (Nat.pos_of_ne_zero hne)).symm

theorem text_of_places {s : List Char} (h : ∀ c ∈ s, c ∈ alphabet) :
    (s.reverse.map placeOf).reverse.map digitChar = s := by
  rw [← List.map_reverse, List.reverse_reverse, List.map_map]
  exact (List.map_congr_left fun c hc => digit_char_place (h c hc)).trans (List.map_id s)

/-- Where no zero stands in front, the values are those that division by the base gives. -/
theorem places_eq {s : List Char} (h : ∀ c ∈ s, c ∈ alphabet) (hfirst : s.head? ≠ some '0') :
    s.reverse.map placeOf = Nat.digits 62 (positional s) := by
  refine (Nat.digits_ofDigits 62 (by decide) _ ?_ ?_).symm
  · intro d hd
    obtain ⟨c, hc, rfl⟩ := List.mem_map.mp hd
    exact place_lt (h c (List.mem_reverse.mp hc))
  · intro hne hlast
    cases s with
    | nil => exact hne rfl
    | cons c cs =>
      have hzero : placeOf c = 0 := by simpa using hlast
      have hc := digit_char_place (h c (List.mem_cons_self ..))
      rw [hzero] at hc
      exact hfirst (by rw [← hc]; rfl)

/-- The numeral of a number without zeros in front. -/
def numeral (n : Nat) : List Char :=
  if n = 0 then ['0'] else (Nat.digits 62 n).reverse.map digitChar

theorem numeral_of_unpadded {s : List Char} {n : Int} (h : Denotes s n) (hs : Unpadded s) :
    s = numeral n.toNat := by
  obtain ⟨hne, hdigits, rfl⟩ := h
  rw [Int.toNat_natCast, numeral]
  rcases hs with rfl | hfirst
  · rfl
  · have hplaces := places_eq hdigits hfirst
    have hpos : positional s ≠ 0 := by
      intro hzero
      rw [hzero, Nat.digits_zero, List.map_eq_nil_iff, List.reverse_eq_nil_iff] at hplaces
      exact hne hplaces
    rw [if_neg hpos, ← hplaces, text_of_places hdigits]

theorem numeral_unpadded (n : Nat) : Unpadded (numeral n) := by
  rw [numeral]
  split
  · exact .inl rfl
  · rename_i hne
    refine .inr ?_
    have hdigits : Nat.digits 62 n ≠ [] := Nat.digits_ne_nil_iff_ne_zero.mpr hne
    rw [List.head?_map, List.head?_reverse, List.getLast?_eq_some_getLast hdigits, Option.map_some]
    intro hzero
    have hlast := Nat.getLast_digit_ne_zero 62 hne
    have hlt := Nat.digits_lt_base (by decide) (List.getLast_mem hdigits)
    rw [← (place_digit_char hlt).2, Option.some.inj hzero] at hlast
    exact hlast rfl

theorem encode_eq {n : Int64} (h : 0 ≤ n) : encode n = some (numeral n.toInt.toNat) := by
  rw [encode, if_neg (Int64.not_lt.mpr h), numeral, digits_up_eq]
  have hzero : n = 0 ↔ n.toInt.toNat = 0 := by
    rw [← Int64.toInt_inj]
    rw [Int64.le_iff_toInt_le] at h
    simp only [Int64.toInt_zero] at h ⊢
    omega
  split
  · rename_i hn
    rw [if_pos (hzero.mp hn)]
  · rename_i hn
    rw [if_neg fun h => hn (hzero.mpr h)]

theorem encode_denotes {n : Int64} (h : 0 ≤ n) : Denotes (numeral n.toInt.toNat) n.toInt := by
  obtain ⟨s, hs, -, hread⟩ := encode_some h
  rw [encode_eq h] at hs
  rw [Option.some.inj hs]
  exact decode_iff.mp hread

end Writing

/-- Reading gives the number that is denoted, if it fits; writing gives the one numeral without zeros in
front of each number that is not negative. So what was written is read back, and what was read is
written again just if it has no zeros in front. -/
theorem numerals_exact :
    (∀ s n, decode s = some n ↔ Denotes s n.toInt) ∧
    (∀ n, n < 0 → encode n = none) ∧
    (∀ n, 0 ≤ n → ∃ s, encode n = some s ∧ Denotes s n.toInt ∧ Unpadded s ∧
      ∀ t, Denotes t n.toInt → Unpadded t → t = s) ∧
    (∀ n s, encode n = some s → decode s = some n) ∧
    ∀ s n, decode s = some n → (encode n = some s ↔ Unpadded s) := by
  have hread (s : List Char) (n : Int64) (h : encode n = some s) : decode s = some n := by
    have hsign : 0 ≤ n := Int64.not_lt.mp fun hneg => by
      rw [encode, if_pos hneg] at h
      cases h
    rw [encode_eq hsign] at h
    rw [← Option.some.inj h]
    exact decode_iff.mpr (encode_denotes hsign)
  refine ⟨fun _ _ => decode_iff, fun n hneg => if_pos hneg, fun n hn => ?_,
    fun n s => hread s n, fun s n hs => ?_⟩
  · refine ⟨_, encode_eq hn, encode_denotes hn, numeral_unpadded _, fun t ht ht' => ?_⟩
    exact numeral_of_unpadded ht ht'
  · have hdenotes := decode_iff.mp hs
    have hn : 0 ≤ n := by
      rw [Int64.le_iff_toInt_le, ← hdenotes.value]
      exact Int.natCast_nonneg _
    rw [encode_eq hn, Option.some.injEq]
    constructor
    · rintro rfl
      exact numeral_unpadded _
    · exact fun hunpadded => (numeral_of_unpadded hdenotes hunpadded).symm

/-- The greatest number, with zeros in front and without, a number below zero, and one number too many. -/
theorem numerals_exact_greatest :
    decode "00AzL8n0Y58m7".toList = some Int64.maxValue ∧
    encode Int64.maxValue ≠ some "00AzL8n0Y58m7".toList ∧
    encode Int64.maxValue = some "AzL8n0Y58m7".toList ∧
    encode (-1) = none ∧ ¬Denotes "AzL8n0Y58m8".toList Int64.maxValue.toInt := by
  obtain ⟨hread, hnegative, -, -, hagain⟩ := numerals_exact
  have hpadded : decode "00AzL8n0Y58m7".toList = some Int64.maxValue := by decide +kernel
  have hbare : decode "AzL8n0Y58m7".toList = some Int64.maxValue := by decide +kernel
  refine ⟨hpadded, ?_, ?_, hnegative (-1) (by decide), ?_⟩
  · rw [Ne, hagain _ _ hpadded, Unpadded]
    decide
  · rw [hagain _ _ hbare, Unpadded]
    decide
  · rw [← hread]
    decide +kernel

end DocForms.Number.Base62
