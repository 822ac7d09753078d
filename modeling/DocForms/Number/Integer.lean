import DocForms.Text.Character

namespace DocForms.Number
open Text

/-- The number written by a non-empty run of decimal digits. -/
def readNat? (s : List Char) : Option Nat :=
  if s.isEmpty || !s.all isDigit then none else some (Nat.ofDigitChars 10 s 0)

/-- Separates a leading sign; `true` stands for a minus. -/
def splitSign : List Char → Bool × List Char
  | '-' :: rest => (true, rest)
  | '+' :: rest => (false, rest)
  | s => (false, s)

/-- The integer written by an optional sign and a run of digits. -/
def readInt? (s : List Char) : Option Int :=
  let (negative, digits) := splitSign s
  (readNat? digits).map fun n => if negative then -(n : Int) else n

/-- The 64-bit integer with the given value, if there is one. -/
def int64? (n : Int) : Option Int64 :=
  if Int64.minValue.toInt ≤ n ∧ n ≤ Int64.maxValue.toInt then some (Int64.ofInt n) else none

/-- Reads an integer that fits 64 bits. -/
def readInt64? (s : List Char) : Option Int64 :=
  (readInt? s).bind int64?

def natText (n : Nat) : List Char :=
  Nat.toDigits 10 n

def intText (n : Int) : List Char :=
  if n < 0 then '-' :: natText n.natAbs else natText n.natAbs

def int64Text (n : Int64) : List Char :=
  intText n.toInt

end DocForms.Number
