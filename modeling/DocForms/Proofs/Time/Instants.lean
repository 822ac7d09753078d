import DocForms.Time
import DocForms.Proofs.Number.DoubleText
import DocForms.Proofs.Outcomes
import Mathlib.Data.List.TakeWhile

namespace DocForms
open Text Number

namespace Day

section Era
-- `day` counts the days of an era of four hundred years, and `year` is the year of the era that `ofCount`
-- tells for it.
variable {day year : Int} (hday : 0 ≤ day ∧ day < 146097)
  (hyear : year = (day - day / 1460 + day / 36524 - day / 146096) / 365)
include hday hyear

theorem year_of_era : 0 ≤ year ∧ year < 400 := by
  omega

/-- The last day of an era would count as a century of its own. -/
theorem century_of_era : year / 100 = day / 36524 - day / 146096 := by
  have hcentury : day / 36524 = 0 ∨ day / 36524 = 1 ∨ day / 36524 = 2 ∨ day / 36524 = 3 ∨
      day / 36524 = 4 := by
    omega
  rcases hcentury with h | h | h | h | h <;> omega

theorem day_of_year :
    0 ≤ day - (365 * year + year / 4 - year / 100) ∧
      day - (365 * year + year / 4 - year / 100) ≤ 366 := by
  have hcentury := century_of_era hday hyear
  have hlow : year / 4 ≤ day / 1460 := by omega
  have hhigh : day / 1460 ≤ year / 4 + 1 := by omega
  constructor
  · omega
  · omega

end Era

/-- A date by the era, the year of the era, the month from March on and the day of the month. -/
def ofParts (era year month day : Int) : Day :=
  if month < 10 then ⟨year + era * 400, (month + 3).toNat, day.toNat⟩
  else ⟨year + era * 400 + 1, (month - 9).toNat, day.toNat⟩

theorem to_count_of_parts {era year month day : Int} (hyear : 0 ≤ year ∧ year < 400)
    (hmonth : 0 ≤ month ∧ month < 12) (hday : 0 ≤ day) :
    (ofParts era year month day).toCount = era * 146097 +
      (year * 365 + year / 4 - year / 100 + ((153 * month + 2) / 5 + day - 1)) - 719468 := by
  have hera : (year + era * 400).fdiv 400 = era := by
    rw [Int.fdiv_eq_ediv_of_nonneg _ (by decide)]
    omega
  have hday' : (day.toNat : Int) = day := Int.toNat_of_nonneg hday
  rw [ofParts]
  split
  · rename_i h
    have hm : ¬(month + 3).toNat ≤ 2 := by omega
    have hm' : ((month + 3).toNat : Int) - 3 = month := by omega
    simp only [toCount, if_neg hm, hera, hday', hm', Int.add_sub_cancel]
  · rename_i h
    have hm : (month - 9).toNat ≤ 2 := by omega
    have hm' : ((month - 9).toNat : Int) + 9 = month := by omega
    simp only [toCount, if_pos hm, hera, hday', hm', Int.add_sub_cancel]

/-- The parts of a date, and the count that they stand for. -/
theorem of_count_parts (count : Int) : ∃ era year month day,
    ofCount count = ofParts era year month day ∧ (0 ≤ year ∧ year < 400) ∧
      (0 ≤ month ∧ month < 12) ∧ (0 ≤ day ∧ day < 100) ∧ count = era * 146097 +
        (year * 365 + year / 4 - year / 100 + ((153 * month + 2) / 5 + day - 1)) - 719468 := by
  have hera : (count + 719468).fdiv 146097 = (count + 719468) / 146097 :=
    Int.fdiv_eq_ediv_of_nonneg _ (by decide)
  generalize hshifted : count + 719468 = shifted at hera
  generalize hday : shifted - shifted / 146097 * 146097 = day
  generalize hyear : (day - day / 1460 + day / 36524 - day / 146096) / 365 = year
  generalize hrest : day - (365 * year + year / 4 - year / 100) = rest
  generalize hmonth : (5 * rest + 2) / 153 = month
  have hrange : 0 ≤ day ∧ day < 146097 := by omega
  have hrest0 := day_of_year hrange hyear.symm
  rw [hrest] at hrest0
  refine ⟨shifted / 146097, year, month, rest - (153 * month + 2) / 5 + 1, ?_,
    year_of_era hrange hyear.symm, by omega, by omega, by omega⟩
  rw [← hmonth, ← hrest, ← hyear, ← hday, ofCount, hshifted, hera, ofParts]

/-- A day is told by its date. -/
theorem to_count_of_count (count : Int) : (ofCount count).toCount = count := by
  obtain ⟨era, year, month, day, hof, hyear, hmonth, hday, hcount⟩ := of_count_parts count
  rw [hof, to_count_of_parts hyear hmonth hday.1, ← hcount]

theorem of_count_bounds (count : Int) :
    (ofCount count).month < 100 ∧ (ofCount count).day < 100 := by
  obtain ⟨era, year, month, day, hof, -, hmonth, hday, -⟩ := of_count_parts count
  rw [hof, ofParts]
  split <;> dsimp only <;> omega

end Day

theorem padded_digits (width n : Nat) : Digits (paddedText width n) := by
  intro c hc
  rcases List.mem_append.mp hc with hc | hc
  · exact digits_zeros _ c hc
  · exact nat_text_digits n c hc

/-- Zeros in front do not change a number. -/
theorem padded_value (width n : Nat) : Nat.ofDigitChars 10 (paddedText width n) 0 = n := by
  rw [paddedText, Nat.ofDigitChars_append, Nat.ofDigitChars_replicate_zero, Nat.mul_zero, natText,
    Nat.ofDigitChars_ten_toDigits]

theorem padded_length (width n : Nat) (hwidth : 0 < width) (h : n < 10 ^ width) :
    (paddedText width n).length = width := by
  have hdigits : (natText n).length ≤ width :=
    (Nat.length_toDigits_le_iff (by decide) hwidth).mpr h
  rw [paddedText, List.length_append, List.length_replicate]
  omega

theorem padded_ne_nil (width n : Nat) : paddedText width n ≠ [] := by
  simp [paddedText, nat_text_ne_nil]

theorem digit_not_blank {c : Char} (h : isDigit c = true) : isBlank c = false :=
  word_char_not_blank (digit_is_word h)

theorem trim_digits {s : List Char} (h : Digits s) (hne : s ≠ []) (rest : List Char) :
    trimStart (s ++ rest) = s ++ rest := by
  obtain ⟨c, cs, rfl⟩ := List.exists_cons_of_ne_nil hne
  exact List.dropWhile_cons_of_neg (by simp [digit_not_blank (h c (by simp))])

namespace Instant

theorem read_digits_ok (width : Nat) {s rest : List Char} (hs : Digits s) (hne : s ≠ [])
    (hlength : s.length ≤ width) (hrest : EndsDigits rest) :
    readDigits width (s ++ rest) = some (Nat.ofDigitChars 10 s 0, rest) := by
  obtain ⟨htake, -⟩ := take_digits hs hrest
  rw [readDigits, htake, List.take_of_length_le hlength]
  simp [hne]

theorem read_part_padded {n : Nat} (h : n < 100) {rest : List Char} (hrest : EndsDigits rest) :
    readPart 2 (paddedText 2 n ++ rest) = some (n, rest) := by
  have hdigits := padded_digits 2 n
  have hne := padded_ne_nil 2 n
  have hlength := padded_length 2 n (by decide) h
  rw [readPart, trim_digits hdigits hne, read_digits_ok _ hdigits hne hlength.le hrest, padded_value]

theorem read_year_below (s : List Char) :
    readYear ('-' :: s) = (readDigits s.length s).map fun (n, rest) => (-(n : Int), rest) :=
  rfl

theorem read_year_above (s : List Char) :
    readYear ('+' :: s) = (readDigits s.length s).map fun (n, rest) => ((n : Int), rest) :=
  rfl

theorem read_year_text {year : Int} {rest : List Char} (hrest : EndsDigits rest) :
    readYear (yearText year ++ rest) = some (year, rest) := by
  rw [yearText]
  split
  · rename_i h
    have hdigits := padded_digits 4 year.toNat
    have hne := padded_ne_nil 4 year.toNat
    have hlength := padded_length 4 year.toNat (by decide) (by omega)
    rw [readYear, trim_digits hdigits hne]
    obtain ⟨c, cs, hcs⟩ := List.exists_cons_of_ne_nil hne
    have hc : isDigit c = true := hdigits c (by simp [hcs])
    split
    · rename_i heq
      rw [hcs] at heq
      cases heq
      exact absurd hc (by decide)
    · rename_i heq
      rw [hcs] at heq
      cases heq
      exact absurd hc (by decide)
    · rw [read_digits_ok _ hdigits hne hlength.le hrest, padded_value, Option.map_some]
      dsimp only
      rw [Int.toNat_of_nonneg h.1]
  · have hdigits := padded_digits 4 year.natAbs
    have hne := padded_ne_nil 4 year.natAbs
    have hread := read_digits_ok (paddedText 4 year.natAbs ++ rest).length hdigits hne (by simp) hrest
    rw [padded_value] at hread
    split
    · rw [List.cons_append, read_year_below, hread, Option.map_some]
      exact congrArg some (Prod.ext (by dsimp only; omega) rfl)
    · rw [List.cons_append, read_year_above, hread, Option.map_some]
      exact congrArg some (Prod.ext (by dsimp only; omega) rfl)

/-- The digits of a fraction are those of the nanoseconds from the left. -/
theorem read_fraction_padded {width n : Nat} (hpos : 0 < width) (hwidth : width ≤ 9)
    (h : n < 10 ^ width) {rest : List Char} (hrest : EndsDigits rest) :
    readFraction ('.' :: paddedText width n ++ rest) = some (10 ^ (9 - width) * n, rest) := by
  have hlength := padded_length width n hpos h
  obtain ⟨htake, hdrop⟩ := take_digits (padded_digits width n) hrest
  have hkept : (paddedText width n).take 9 = paddedText width n :=
    List.take_of_length_le (by omega)
  rw [List.cons_append, readFraction, htake, hdrop, hkept, List.rightpad, hlength, Nat.ofDigitChars_append, padded_value,
    Nat.ofDigitChars_replicate_zero]
  simp [padded_ne_nil]

theorem read_fraction_text {nanos : Nat} (h : nanos < 1000000000) {rest : List Char}
    (hrest : EndsDigits rest) (hpoint : rest.head? ≠ some '.') :
    readFraction (fractionText nanos ++ rest) = some (nanos, rest) := by
  rw [fractionText]
  split
  · rename_i hzero
    rw [hzero, List.nil_append, readFraction]
    rintro t rfl
    exact hpoint rfl
  · split
    · rename_i hmilli
      rw [read_fraction_padded (by decide) (by decide) (by omega) hrest]
      exact congrArg some (Prod.ext (by dsimp only; omega) rfl)
    · split
      · rename_i hmicro
        rw [read_fraction_padded (by decide) (by decide) (by omega) hrest]
        exact congrArg some (Prod.ext (by dsimp only; omega) rfl)
      · rw [read_fraction_padded (by decide) (by decide) h hrest]
        exact congrArg some (Prod.ext (by dsimp only; omega) rfl)

/-- The instants that a clock shows: their dates are kept, and a second goes on past its end only where
a leap second may come. -/
structure IsKept (t : Instant) : Prop where
  day : t.day.isKept = true
  nanos : t.nanos < 1000000000 ∨ t.nanos < 2000000000 ∧ t.seconds % 60 = 59

theorem ends_digits {c : Char} (h : isDigit c = false) (s : List Char) : EndsDigits (c :: s) := by
  rintro d ⟨⟩
  exact h

theorem read_mark (mark : Char) (h : isBlank mark = false) (s : List Char) :
    readMark mark (mark :: s) = some s := by
  rw [readMark, trimStart, List.dropWhile_cons_of_neg (by simp [h])]
  exact if_pos rfl

/-- What is read from the text of a date and a time of day at Greenwich. -/
theorem read_parts (year : Int) (month day hour minute second nanos : Nat) (hmonth : month < 100)
    (hday : day < 100) (hhour : hour < 24) (hminute : minute < 60) (hsecond : second ≤ 60)
    (hnanos : nanos < 1000000000) :
    read? (yearText year ++ '-' :: paddedText 2 month ++ '-' :: paddedText 2 day ++
      'T' :: paddedText 2 hour ++ ':' :: paddedText 2 minute ++ ':' :: paddedText 2 second ++
      fractionText nanos ++ ['Z']) =
    if (⟨year, month, day⟩ : Day).exists? then
      let t : Instant := ⟨(⟨year, month, day⟩ : Day).toCount * secondsPerDay +
        (hour * 3600 + minute * 60 + (second - second / 60) : Nat), nanos + second / 60 * 1000000000⟩
      if t.day.isKept then some t else none
    else none := by
  have hyear (rest : List Char) :
      readYear (yearText year ++ '-' :: rest) = some (year, '-' :: rest) :=
    read_year_text (ends_digits rfl rest)
  have hpart {n : Nat} (hn : n < 100) {c : Char} (hc : isDigit c = false) (rest : List Char) :
      readPart 2 (paddedText 2 n ++ c :: rest) = some (n, c :: rest) :=
    read_part_padded hn (ends_digits hc rest)
  have hlast : readPart 2 (paddedText 2 second ++ (fractionText nanos ++ ['Z'])) =
      some (second, fractionText nanos ++ ['Z']) := by
    refine read_part_padded (by omega) ?_
    rw [fractionText]
    repeat' split
    all_goals exact ends_digits rfl _
  have hfraction : readFraction (fractionText nanos ++ ['Z']) = some (nanos, ['Z']) :=
    read_fraction_text hnanos (ends_digits rfl _) (by decide)
  have hdash (rest : List Char) : readMark '-' ('-' :: rest) = some rest :=
    read_mark '-' rfl rest
  have hcolon (rest : List Char) : readMark ':' (':' :: rest) = some rest :=
    read_mark ':' rfl rest
  have hoffset : readOffset (trimStart ['Z']) = some (0, []) := rfl
  simp only [List.append_assoc, List.cons_append]
  rw [read?, hyear, some_bind]
  dsimp only
  rw [hdash, some_bind, hpart hmonth rfl, some_bind]
  dsimp only
  rw [hdash, some_bind, hpart hday rfl, some_bind]
  dsimp only
  rw [if_pos (.inl rfl), some_bind, hpart (by omega) rfl, some_bind]
  dsimp only
  rw [hcolon, some_bind, hpart (by omega) rfl, some_bind]
  dsimp only
  rw [hcolon, some_bind, hlast, some_bind]
  dsimp only
  rw [hfraction, some_bind]
  dsimp only
  rw [hoffset, some_bind]
  simp [hhour, hminute, hsecond, isBlankLine]

/-- An instant is read back from its text. -/
theorem read_text {t : Instant} (h : t.IsKept) : read? t.text = some t := by
  obtain ⟨hkept, hnanos⟩ := h
  obtain ⟨seconds, nanos⟩ := t
  dsimp only at hnanos
  have hdays : seconds.fdiv secondsPerDay = seconds / 86400 :=
    Int.fdiv_eq_ediv_of_nonneg _ (by decide)
  have hseconds : seconds.fmod secondsPerDay = seconds % 86400 :=
    Int.fmod_eq_emod_of_nonneg _ (by decide)
  generalize hsecond : (seconds % 86400).toNat = second
  generalize hleap : nanos / 1000000000 = leap
  have hdate : (Day.ofCount (seconds / 86400)).exists? = true := by
    rw [day, hdays] at hkept
    simp [Day.exists?, Day.to_count_of_count, hkept]
  obtain ⟨hmonth, hday⟩ := Day.of_count_bounds (seconds / 86400)
  have hback : second / 3600 * 3600 + second / 60 % 60 * 60 +
      (second % 60 + leap - (second % 60 + leap) / 60) = second ∧ (second % 60 + leap) / 60 = leap := by
    omega
  have hparts := read_parts (Day.ofCount (seconds / 86400)).year _ _ (second / 3600)
    (second / 60 % 60) (second % 60 + leap) (nanos % 1000000000) hmonth hday (by omega) (by omega)
    (by omega) (by omega)
  have hwhole : (⟨seconds / 86400 * secondsPerDay + (second : Int), nanos % 1000000000 +
      leap * 1000000000⟩ : Instant) = ⟨seconds, nanos⟩ := by
    rw [secondsPerDay, Instant.mk.injEq]
    omega
  rw [hback.1, hback.2, Day.to_count_of_count, hwhole, if_pos hdate] at hparts
  rw [text]
  dsimp only
  rw [day, hdays, hseconds, hsecond, hleap, hparts]
  exact if_pos hkept

theorem digit_value {c : Char} (h : isDigit c = true) : c.toNat - '0'.toNat ≤ 9 := by
  have hc : '0' ≤ c ∧ c ≤ '9' := by simpa [isDigit] using h
  have h9 : c.toNat ≤ '9'.toNat := hc.2
  have : '9'.toNat = 57 := rfl
  have : '0'.toNat = 48 := rfl
  omega

theorem digits_value_lt {s : List Char} (hs : Digits s) : Nat.ofDigitChars 10 s 0 < 10 ^ s.length := by
  suffices h : ∀ n, Nat.ofDigitChars 10 s n < (n + 1) * 10 ^ s.length by
    simpa using h 0
  induction s with
  | nil => exact fun n => by simp
  | cons c rest ih =>
    intro n
    have hc := digit_value (hs c (List.mem_cons_self ..))
    have hrest := ih (fun d hd => hs d (List.mem_cons_of_mem _ hd)) (10 * n + (c.toNat - '0'.toNat))
    rw [Nat.ofDigitChars_cons, List.length_cons, Nat.pow_succ']
    refine hrest.trans_le ?_
    rw [← Nat.mul_assoc]
    exact Nat.mul_le_mul_right _ (by omega)

/-- A fraction stays below a second. -/
theorem read_fraction_lt {s rest : List Char} {nanos : Nat} (h : readFraction s = some (nanos, rest)) :
    nanos < 1000000000 := by
  unfold readFraction at h
  split at h
  · rename_i digits
    dsimp only at h
    split at h
    · cases h
    · obtain ⟨rfl, -⟩ := Prod.mk.inj (Option.some.inj h)
      generalize hkept : (digits.takeWhile isDigit).take 9 = kept
      have hlength : kept.length ≤ 9 := hkept ▸ List.length_take_le _ _
      have hdigits : Digits (kept.rightpad 9 '0') := by
        rw [List.rightpad]
        refine Digits.append (fun c hc => ?_) (digits_zeros _)
        rw [← hkept] at hc
        exact (List.mem_takeWhile_imp (List.mem_of_mem_take hc))
      have hlt := digits_value_lt hdigits
      have hpadded : (kept.rightpad 9 '0').length = 9 := by
        rw [List.rightpad, List.length_append, List.length_replicate]
        omega
      rwa [hpadded] at hlt
  · obtain ⟨rfl, -⟩ := Prod.mk.inj (Option.some.inj h)
    decide

/-- A difference from Greenwich is told in minutes. -/
theorem read_offset_minutes {s rest : List Char} {offset : Int}
    (h : readOffset s = some (offset, rest)) : offset % 60 = 0 := by
  unfold readOffset at h
  split at h
  · split at h
    · cases h
      rfl
    · split at h
      · cases h
        rfl
      · -- with any sign, the hours and minutes that follow are counted in seconds
        have hparts : ∀ (sign : Int) (s : List Char),
            ((readOffset.twoDigits s).bind fun (hours, rest) =>
              (readOffset.twoDigits (rest.dropWhile fun c => c == ':' || isBlank c)).bind
                fun (minutes, rest) => if minutes < 60 ∧ hours < 24 then
                  some (sign * (hours * 3600 + minutes * 60 : Nat), rest) else none) =
              some (offset, rest) → offset % 60 = 0 := by
          intro sign s h
          obtain ⟨⟨hours, s₁⟩, -, h⟩ := Option.bind_eq_some_iff.mp h
          obtain ⟨⟨minutes, s₂⟩, -, h⟩ := Option.bind_eq_some_iff.mp h
          dsimp only at h
          split at h
          · obtain ⟨rfl, -⟩ := Prod.mk.inj (Option.some.inj h)
            refine Int.emod_eq_zero_of_dvd (Dvd.dvd.mul_left ?_ sign)
            omega
          · cases h
        dsimp only at h
        split at h
        · exact hparts _ _ h
        · split at h
          · exact hparts _ _ h
          · cases h
  · cases h

/-- Whatever is read is an instant that can be kept. -/
theorem read_kept {s : List Char} {t : Instant} (h : read? s = some t) : t.IsKept := by
  unfold read? at h
  obtain ⟨⟨year, s₁⟩, -, h⟩ := Option.bind_eq_some_iff.mp h
  obtain ⟨s₂, -, h⟩ := Option.bind_eq_some_iff.mp h
  obtain ⟨⟨month, s₃⟩, -, h⟩ := Option.bind_eq_some_iff.mp h
  obtain ⟨s₄, -, h⟩ := Option.bind_eq_some_iff.mp h
  obtain ⟨⟨day, s₅⟩, -, h⟩ := Option.bind_eq_some_iff.mp h
  dsimp only at h
  split at h
  · split at h
    · obtain ⟨s₆, -, h⟩ := Option.bind_eq_some_iff.mp h
      obtain ⟨⟨hour, s₇⟩, -, h⟩ := Option.bind_eq_some_iff.mp h
      obtain ⟨s₈, -, h⟩ := Option.bind_eq_some_iff.mp h
      obtain ⟨⟨minute, s₉⟩, -, h⟩ := Option.bind_eq_some_iff.mp h
      obtain ⟨s₁₀, -, h⟩ := Option.bind_eq_some_iff.mp h
      obtain ⟨⟨second, s₁₁⟩, -, h⟩ := Option.bind_eq_some_iff.mp h
      obtain ⟨⟨nanos, s₁₂⟩, hnanos, h⟩ := Option.bind_eq_some_iff.mp h
      obtain ⟨⟨offset, s₁₃⟩, hoffset, h⟩ := Option.bind_eq_some_iff.mp h
      dsimp only at h
      split at h
      · rename_i hparts
        split at h
        · rename_i hday
          cases h
          refine ⟨hday, ?_⟩
          have hfraction := read_fraction_lt hnanos
          have hminutes := read_offset_minutes hoffset
          have hsecond : second ≤ 60 := by
            simp only [Bool.and_eq_true, decide_eq_true_eq] at hparts
            exact hparts.1.2
          dsimp only
          rw [secondsPerDay]
          rcases Nat.lt_or_ge second 60 with hless | hleap
          · exact .inl (by omega)
          · obtain rfl : second = 60 := by omega
            exact .inr (by omega)
        · cases h
      · cases h
    · cases h
  · cases h

end Instant
end DocForms
