import DocForms.Number.Integer
import DocForms.Number.Double

namespace DocForms.Number
open Text

/-- The number `coefficient * 10 ^ exponent`. -/
structure Decimal where
  coefficient : Nat
  exponent : Int
deriving DecidableEq, Repr

namespace Decimal

def magnitude (d : Decimal) : Magnitude :=
  .ofDecimal d.coefficient d.exponent

/-- Reads what may follow the digits: nothing, or an exponent mark with a signed number. -/
def readExponent? : List Char → Option Int
  | [] => some 0
  | c :: rest => if c = 'e' ∨ c = 'E' then readInt? rest else none

/-- Reads digits with at most one point among them and an optional exponent, without a sign. -/
def read? (s : List Char) : Option Decimal :=
  let whole := s.takeWhile isDigit
  let afterWhole := s.dropWhile isDigit
  let (fraction, afterFraction) :=
    match afterWhole with
    | '.' :: rest => (rest.takeWhile isDigit, rest.dropWhile isDigit)
    | rest => ([], rest)
  if whole.isEmpty && fraction.isEmpty then none
  else (readExponent? afterFraction).map fun e =>
    ⟨Nat.ofDigitChars 10 (whole ++ fraction) 0, e - fraction.length⟩

end Decimal

/-- ASCII letters in lower case. -/
def lowerCase (s : List Char) : List Char :=
  s.map Char.toLower

/-- Reads an unsigned number or a name of infinity or of no number. -/
def readMagnitude? (s : List Char) : Option Magnitude :=
  if lowerCase s = "inf".toList ∨ lowerCase s = "infinity".toList then some .infinity
  else if lowerCase s = "nan".toList then some Double.nan.magnitude
  else (Decimal.read? s).map Decimal.magnitude

/-- Reads a floating-point number: an optional sign, then digits or a name. -/
def readDouble? (s : List Char) : Option Double :=
  let (negative, digits) := splitSign s
  (readMagnitude? digits).map (Double.ofParts negative)

/-- Which of two equally near digit strings is written. -/
inductive Tie
  | up
  | even
deriving DecidableEq, Repr

/-- How numbers are laid out. Positional notation is used from `10 ^ leastPlain` to below `10 ^ 16`,
with one digit after the point at least. -/
structure DoubleStyle where
  leastPlain : Int
  plusSign : Bool
  tie : Tie
deriving DecidableEq, Repr

/-- The number of decimal digits of a number of fewer than ten thousand binary ones, whose count gives
it up to one. -/
def decimalLength (n : Nat) : Nat :=
  let least := n.log2 * 30103 / 100000 + 1
  if Nat.pow 10 least ≤ n then least + 1 else least

namespace Magnitude

/-- The number of decimal digits before the point; not positive when zeros follow the point. -/
def pointPosition (m : Magnitude) : Int :=
  (decimalLength (m.units * Nat.pow 10 400 / unitsInOne) : Int) - 400

/-- The value in steps of `10 ^ exponent`, as numerator and denominator. -/
def inSteps (m : Magnitude) (exponent : Int) : Nat × Nat :=
  if 0 ≤ exponent then (m.units, unitsInOne * Nat.pow 10 exponent.toNat)
  else (m.units * Nat.pow 10 (-exponent).toNat, unitsInOne)

/-- The two neighbours of the value on the grid of the multiples of `10 ^ exponent`, the preferred one
first. -/
def neighbours (tie : Tie) (m : Magnitude) (exponent : Int) : List Decimal :=
  let (num, den) := m.inSteps exponent
  let below := num / den
  let upFirst := den < 2 * (num % den) ∨
    (den = 2 * (num % den) ∧ (tie = .up ∨ below % 2 = 1))
  if upFirst then [⟨below + 1, exponent⟩, ⟨below, exponent⟩]
  else [⟨below, exponent⟩, ⟨below + 1, exponent⟩]

/-- The exact value in decimal digits. -/
def exactDecimal (m : Magnitude) : Decimal :=
  ⟨m.units * Nat.pow 5 1074, -1074⟩

/-- The fewest digits that read back as `m`, at most seventeen. -/
def shortest? (tie : Tie) (m : Magnitude) : Option Decimal :=
  let point := m.pointPosition
  (List.range' 1 17).findSome? fun (digits : Nat) =>
    (m.neighbours tie (point - digits)).find? fun d => d.magnitude = m

/-- Digits that read back as `m`. -/
def toDecimal (tie : Tie) (m : Magnitude) : Decimal :=
  (m.shortest? tie).getD m.exactDecimal

end Magnitude

/-- Digits with the point after the first `point` of them; zeros fill up, and one digit stands on each
side of the point at least. -/
def plainText (digits : List Char) (point : Int) : List Char :=
  if point ≤ 0 then
    '0' :: '.' :: List.replicate (-point).toNat '0' ++ digits
  else if digits.length ≤ point.toNat then
    digits ++ List.replicate (point.toNat - digits.length) '0' ++ ['.', '0']
  else
    digits.take point.toNat ++ '.' :: digits.drop point.toNat

/-- One digit before the point, then the exponent. -/
def scientificText (style : DoubleStyle) (digits : List Char) (exponent : Int) : List Char :=
  digits.take 1 ++ (if digits.length ≤ 1 then [] else '.' :: digits.drop 1) ++
    'e' :: (if style.plusSign && 0 ≤ exponent then '+' :: intText exponent else intText exponent)

namespace Decimal

/-- Digits without the zeros that end them, which the exponent takes over. -/
def significantDigits (d : Decimal) : List Char :=
  ((natText d.coefficient).reverse.dropWhile (· == '0')).reverse

def text (style : DoubleStyle) (d : Decimal) : List Char :=
  if d.coefficient = 0 then "0.0".toList
  else
    let digits := d.significantDigits
    let point := (natText d.coefficient).length + d.exponent
    if style.leastPlain < point ∧ point ≤ 16 then plainText digits point
    else scientificText style digits (point - 1)

end Decimal

/-- The text of a number's size. -/
def magnitudeText (style : DoubleStyle) (m : Magnitude) : List Char :=
  if m = 0 then "0.0".toList else (m.toDecimal style.tie).text style

def doubleText (style : DoubleStyle) (x : Double) : List Char :=
  if x.isNaN then "NaN".toList
  else
    let body := if x.isFinite then magnitudeText style x.magnitude else "inf".toList
    if x.isNegative then '-' :: body else body

end DocForms.Number
