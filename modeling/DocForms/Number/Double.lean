namespace DocForms.Number

/-- A 64-bit floating-point number, held as its bit pattern: sign, eleven exponent bits and fifty-two
fraction bits. -/
structure Double where
  bits : UInt64
deriving DecidableEq, Repr, Inhabited

/-- The sixty-three bits below the sign. They order numbers of one sign by size, and the next pattern
is the next larger number. -/
abbrev Magnitude := Nat

namespace Magnitude

/-- The pattern of infinity; finite patterns are smaller and patterns of no number larger. -/
def infinity : Magnitude := 0x7FF0000000000000

/-- The bit above the fraction, `2 ^ 52`: the leading bit of all but the smallest numbers. -/
def leadingBit : Nat := 0x10000000000000

/-- The fraction with its leading bit. -/
def significand (m : Magnitude) : Nat :=
  if m < leadingBit then m else leadingBit + m % leadingBit

/-- The power of two that the significand is multiplied by. -/
def scale (m : Magnitude) : Nat :=
  m / leadingBit - 1

/-- The value of a finite pattern: a count of units of `2 ^ -1074`, the smallest positive number. What is
computed with such counts is exact, and is rounded once. -/
def units (m : Magnitude) : Nat :=
  m.significand <<< m.scale

/-- The number of units in one. -/
def unitsInOne : Nat := 1 <<< 1074

/-- The pattern nearest to a quotient of units; of two equally near the even one. Quotients past the
largest finite number round to infinity. -/
def nearest (num den : Nat) : Magnitude :=
  let shift := (num / den).log2 - 52
  let step := den <<< shift
  let floor := shift * leadingBit + num / step
  let rest := num % step
  let up := step < 2 * rest ∨ (step = 2 * rest ∧ floor % 2 = 1)
  min infinity (if up then floor + 1 else floor)

/-- The pattern nearest to a quotient of whole numbers. -/
def ofRatio (num den : Nat) : Magnitude :=
  nearest (num * unitsInOne) den

/-- The pattern nearest to `coefficient * 10 ^ exponent`. Exponents far out of range are settled by
their size alone. -/
def ofDecimal (coefficient : Nat) (exponent : Int) : Magnitude :=
  if coefficient = 0 then 0
  else if 400 < exponent then infinity
  else if exponent < -(400 + (coefficient.log2 : Int)) then 0
  else if 0 ≤ exponent then ofRatio (coefficient * Nat.pow 10 exponent.toNat) 1
  else ofRatio coefficient (Nat.pow 10 (-exponent).toNat)

/-- The product of two finite numbers, rounded once. -/
def mul (a b : Magnitude) : Magnitude :=
  nearest (a.units * b.units) unitsInOne

/-- The quotient of two finite numbers, rounded once. -/
def div (a b : Magnitude) : Magnitude :=
  nearest (a.units * unitsInOne) b.units

end Magnitude

namespace Double

/-- The sign's bit, `2 ^ 63`. -/
def signBit : Nat := 0x8000000000000000

def ofParts (negative : Bool) (m : Magnitude) : Double :=
  ⟨UInt64.ofNat (if negative then signBit + m else m)⟩

def magnitude (x : Double) : Magnitude :=
  x.bits.toNat % signBit

def isNegative (x : Double) : Bool :=
  signBit ≤ x.bits.toNat

def isFinite (x : Double) : Bool :=
  x.magnitude < Magnitude.infinity

def isNaN (x : Double) : Bool :=
  Magnitude.infinity < x.magnitude

def nan : Double := ⟨0x7FF8000000000000⟩

/-- Equality of the numbers meant: the two zeros are equal and what is not a number differs from
itself. -/
def numEq (x y : Double) : Bool :=
  !x.isNaN && !y.isNaN && (x.bits == y.bits || (x.magnitude == 0 && y.magnitude == 0))

/-- The number nearest to an integer. -/
def ofInt (n : Int) : Double :=
  ofParts (n < 0) (.ofRatio n.natAbs 1)

end Double

end DocForms.Number
