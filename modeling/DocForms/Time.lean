import DocForms.Number.Integer
import DocForms.Text.Fields

namespace DocForms
open Text Number

/-- A point in time. Seconds count from the start of 1970 and nanoseconds within the second; from
`10 ^ 9` on they stand for a leap second. -/
structure Instant where
  seconds : Int
  nanos : Nat
deriving DecidableEq, Repr, Inhabited

namespace Instant

def before (a b : Instant) : Bool :=
  a.seconds < b.seconds || (a.seconds == b.seconds && a.nanos < b.nanos)

end Instant

/-- A day of the calendar. -/
structure Day where
  year : Int
  month : Nat
  day : Nat
deriving DecidableEq, Repr

namespace Day

/-- The count of days from the start of 1970. Years are counted from March, so that the day that leap
years add comes last. -/
def toCount (d : Day) : Int :=
  let year := if d.month ≤ 2 then d.year - 1 else d.year
  let era := year.fdiv 400
  let yearOfEra := year - era * 400
  let month : Int := if d.month ≤ 2 then d.month + 9 else d.month - 3
  let dayOfYear := (153 * month + 2) / 5 + d.day - 1
  let dayOfEra := yearOfEra * 365 + yearOfEra / 4 - yearOfEra / 100 + dayOfYear
  era * 146097 + dayOfEra - 719468

def ofCount (count : Int) : Day :=
  let shifted := count + 719468
  let era := shifted.fdiv 146097
  let dayOfEra := shifted - era * 146097
  let yearOfEra := (dayOfEra - dayOfEra / 1460 + dayOfEra / 36524 - dayOfEra / 146096) / 365
  let dayOfYear := dayOfEra - (365 * yearOfEra + yearOfEra / 4 - yearOfEra / 100)
  let month := (5 * dayOfYear + 2) / 153
  let day := dayOfYear - (153 * month + 2) / 5 + 1
  let year := yearOfEra + era * 400
  if month < 10 then ⟨year, (month + 3).toNat, day.toNat⟩
  else ⟨year + 1, (month - 9).toNat, day.toNat⟩

/-- Dates are kept for these years. -/
def isKept (d : Day) : Bool :=
  -262143 ≤ d.year && d.year ≤ 262142

/-- Whether the calendar has the day, within the years that dates are kept for. -/
def exists? (d : Day) : Bool :=
  ofCount d.toCount == d && d.isKept

end Day

/-- A number with zeros in front, up to a width. -/
def paddedText (width n : Nat) : List Char :=
  let digits := natText n
  List.replicate (width - digits.length) '0' ++ digits

/-- Years of four digits are bare; others carry a sign. -/
def yearText (year : Int) : List Char :=
  if 0 ≤ year ∧ year ≤ 9999 then paddedText 4 year.toNat
  else (if year < 0 then '-' else '+') :: paddedText 4 year.natAbs

/-- A fraction of three, six or nine digits, the fewest that are exact. -/
def fractionText (nanos : Nat) : List Char :=
  if nanos = 0 then []
  else if nanos % 1000000 = 0 then '.' :: paddedText 3 (nanos / 1000000)
  else if nanos % 1000 = 0 then '.' :: paddedText 6 (nanos / 1000)
  else '.' :: paddedText 9 nanos

namespace Instant

def secondsPerDay : Int := 86400

/-- The date at Greenwich. -/
def day (t : Instant) : Day :=
  .ofCount (t.seconds.fdiv secondsPerDay)

/-- Date and time of day at Greenwich. -/
def text (t : Instant) : List Char :=
  let day := t.day
  let second := (t.seconds.fmod secondsPerDay).toNat
  let leap := t.nanos / 1000000000
  yearText day.year ++ '-' :: paddedText 2 day.month ++ '-' :: paddedText 2 day.day ++
    'T' :: paddedText 2 (second / 3600) ++ ':' :: paddedText 2 (second / 60 % 60) ++
    ':' :: paddedText 2 (second % 60 + leap) ++ fractionText (t.nanos % 1000000000) ++ ['Z']

/-- Reads a number of one to `width` digits. -/
def readDigits (width : Nat) (s : List Char) : Option (Nat × List Char) :=
  let digits := (s.takeWhile isDigit).take width
  if digits.isEmpty then none else some (Nat.ofDigitChars 10 digits 0, s.drop digits.length)

/-- Reads a number of one to `width` digits, after blanks. -/
def readPart (width : Nat) (s : List Char) : Option (Nat × List Char) :=
  readDigits width (trimStart s)

/-- Reads a year; with a sign it may have any number of digits. -/
def readYear (s : List Char) : Option (Int × List Char) :=
  match trimStart s with
  | '-' :: rest => (readDigits rest.length rest).map fun (n, rest) => (-(n : Int), rest)
  | '+' :: rest => (readDigits rest.length rest).map fun (n, rest) => ((n : Int), rest)
  | s => (readDigits 4 s).map fun (n, rest) => ((n : Int), rest)

/-- Reads a mark, after blanks. -/
def readMark (mark : Char) (s : List Char) : Option (List Char) :=
  match trimStart s with
  | c :: rest => if c = mark then some rest else none
  | [] => none

/-- Reads a fraction of a second as nanoseconds; digits after the ninth do not count. -/
def readFraction (s : List Char) : Option (Nat × List Char) :=
  match s with
  | '.' :: rest =>
    let digits := rest.takeWhile isDigit
    let kept := digits.take 9
    if digits.isEmpty then none
    else some (Nat.ofDigitChars 10 (kept.rightpad 9 '0') 0, rest.dropWhile isDigit)
  | _ => some (0, s)

/-- Reads the difference from Greenwich in seconds. -/
def readOffset (s : List Char) : Option (Int × List Char) := do
  match s with
  | c :: rest =>
    if c = 'Z' ∨ c = 'z' then return (0, rest)
    else if lowerThree s = "utc".toList then return (0, s.drop 3)
    else
      let sign ← if c = '+' then some 1 else if c = '-' ∨ c = '−' then some (-1) else none
      let (hours, rest) ← twoDigits rest
      let (minutes, rest) ← twoDigits (rest.dropWhile fun c => c == ':' || isBlank c)
      if minutes < 60 ∧ hours < 24 then return (sign * (hours * 3600 + minutes * 60 : Nat), rest)
      else none
  | [] => none
where
  lowerThree (s : List Char) : List Char := (s.take 3).map Char.toLower
  twoDigits : List Char → Option (Nat × List Char)
    | a :: b :: rest =>
      if isDigit a && isDigit b then some (Nat.ofDigitChars 10 [a, b] 0, rest) else none
    | _ => none

/-- Reads an RFC 3339 time. Blanks may stand around its parts and a space between date and time; the
sixtieth second of a minute is a leap second. The date has to be one that is kept both where the time
was written and at Greenwich. -/
def read? (s : List Char) : Option Instant := do
  let (year, s) ← readYear s
  let s ← readMark '-' s
  let (month, s) ← readPart 2 s
  let s ← readMark '-' s
  let (day, s) ← readPart 2 s
  let date : Day := ⟨year, month, day⟩
  let s ← match s with
    | c :: rest => if c = 'T' ∨ c = 't' ∨ c = ' ' then some rest else none
    | [] => none
  let (hour, s) ← readPart 2 s
  let s ← readMark ':' s
  let (minute, s) ← readPart 2 s
  let s ← readMark ':' s
  let (second, s) ← readPart 2 s
  let (nanos, s) ← readFraction s
  let (offset, s) ← readOffset (trimStart s)
  if date.exists? && hour < 24 && minute < 60 && second ≤ 60 && isBlankLine s then
    let leap := second / 60
    let ofDay : Nat := hour * 3600 + minute * 60 + (second - leap)
    let t : Instant := ⟨date.toCount * secondsPerDay + ofDay - offset, nanos + leap * 1000000000⟩
    if t.day.isKept then some t else none
  else none

end Instant
end DocForms
