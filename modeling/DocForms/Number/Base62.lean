import DocForms.Text.Character

namespace DocForms.Number.Base62
open Text

/-- Digits, then capital letters, then small letters. -/
def digitChar (d : Nat) : Char :=
  if d < 10 then Char.ofNat ('0'.toNat + d)
  else if d < 36 then Char.ofNat ('A'.toNat + (d - 10))
  else Char.ofNat ('a'.toNat + (d - 36))

def digitValue? (c : Char) : Option Nat :=
  if isDigit c then some (c.toNat - '0'.toNat)
  else if 'A' ≤ c ∧ c ≤ 'Z' then some (c.toNat - 'A'.toNat + 10)
  else if 'a' ≤ c ∧ c ≤ 'z' then some (c.toNat - 'a'.toNat + 36)
  else none

/-- Digits of a number, least significant first; none for zero. -/
def digitsUp (n : Nat) : List Nat :=
  if h : n = 0 then [] else n % 62 :: digitsUp (n / 62)
termination_by n
decreasing_by omega

/-- The digits of a number that is not negative, most significant first. -/
def encode (n : Int64) : Option (List Char) :=
  if n < 0 then none
  else if n = 0 then some ['0']
  else some ((digitsUp n.toInt.toNat).reverse.map digitChar)

/-- One step of reading: the number so far with a digit after it, unless it leaves 63 bits: numbers
read are below `2 ^ 63`. -/
def push (n : Nat) (c : Char) : Option Nat := do
  let d ← digitValue? c
  if 62 * n + d < 0x8000000000000000 then some (62 * n + d) else none

/-- Reads a non-empty run of digits whose value fits a signed 64-bit integer. -/
def decode (s : List Char) : Option Int64 :=
  if s.isEmpty then none else (s.foldlM push 0).map Int64.ofNat

end DocForms.Number.Base62
