import DocForms.Json.Basic
import DocForms.Text.Fields

namespace DocForms.Json
open Text Number

/-- A reader takes a value off the front of a text and gives it with what is left; a failure is the text
behind the offence. -/
abbrev Reading := Except (List Char)

def isSpace (c : Char) : Bool :=
  c == ' ' || c == '\n' || c == '\t' || c == '\r'

def skipSpace (s : List Char) : List Char :=
  s.dropWhile isSpace

/-- Refuses the next character, or the end of the text. -/
def refuse {α : Type} (s : List Char) : Reading α :=
  .error (s.drop 1)

/-- Reads a fixed word. -/
def readWord : (word : List Char) → List Char → Reading (List Char)
  | [], s => .ok s
  | c :: cs, s =>
    match s with
    | [] => .error []
    | d :: ds => if c = d then readWord cs ds else .error ds

/-- What is left after a number of bytes; a character cut in two is kept. -/
def dropBytes : Nat → List Char → List Char
  | n, c :: cs => if c.utf8Size ≤ n then dropBytes (n - c.utf8Size) cs else c :: cs
  | _, [] => []

/-- Reads the four hexadecimal digits of an escape. -/
def readCode (s : List Char) : Reading (Nat × List Char) :=
  match s with
  | a :: b :: c :: d :: rest =>
    match hexNumber [a, b, c, d] with
    | some n => .ok (n, rest)
    | none => .error (dropBytes 4 s)
  | _ => .error (dropBytes 4 s)

def isHighSurrogate (n : Nat) : Bool :=
  0xD800 ≤ n && n < 0xDC00

def isLowSurrogate (n : Nat) : Bool :=
  0xDC00 ≤ n && n < 0xE000

/-- Reads the character of a `\u` escape; two surrogates in a row are one character. -/
def readEscapedCode (s : List Char) : Reading (Char × List Char) := do
  let (n, rest) ← readCode s
  if isLowSurrogate n then .error rest
  else if isHighSurrogate n then
    match rest with
    | '\\' :: 'u' :: more =>
      let (low, rest) ← readCode more
      if isLowSurrogate low then
        return (Char.ofNat (0x10000 + (n - 0xD800) * 0x400 + (low - 0xDC00)), rest)
      else .error rest
    | '\\' :: more => refuse more
    | _ => refuse rest
  else return (Char.ofNat n, rest)

/-- The character that a one-letter escape denotes. -/
def simpleEscape? (c : Char) : Option Char :=
  match c with
  | '"' => some '"'
  | '\\' => some '\\'
  | '/' => some '/'
  | 'b' => some '\x08'
  | 'f' => some '\x0c'
  | 'n' => some '\n'
  | 'r' => some '\r'
  | 't' => some '\t'
  | _ => none

/-- Reads one character of a string, or none at the closing quotation mark. -/
def readStringChar : List Char → Reading (Option Char × List Char)
  | [] => .error []
  | '"' :: rest => .ok (none, rest)
  | '\\' :: 'u' :: rest => (readEscapedCode rest).map fun (c, rest) => (some c, rest)
  | '\\' :: rest =>
    match rest with
    | [] => .error []
    | e :: rest =>
      match simpleEscape? e with
      | some c => .ok (some c, rest)
      | none => .error rest
  | c :: rest => if c.toNat < 0x20 then .error rest else .ok (some c, rest)

/-- Reads what follows the opening quotation mark of a string. The fuel bounds the number of characters
and is never used up by a text that is shorter. -/
def readString : (fuel : Nat) → List Char → Reading (List Char × List Char)
  | 0, s => refuse s
  | fuel + 1, s => do
    match ← readStringChar s with
    | (none, rest) => return ([], rest)
    | (some c, rest) =>
      let (cs, rest) ← readString fuel rest
      return (c :: cs, rest)

/-- The largest significand, `2 ^ 64 - 1`. -/
def significandLimit : Nat := 0xFFFFFFFFFFFFFFFF

/-- Digits of a number gathered into a significand of 64 bits, to be multiplied by a power of ten. -/
structure Gathered where
  significand : Nat := 0
  exponent : Int := 0
  full : Bool := false
deriving DecidableEq, Repr

def digitValue (c : Char) : Nat :=
  c.toNat - '0'.toNat

/-- A digit before the point: once one does not fit, it and all after it only add to the exponent. -/
def Gathered.addWhole (g : Gathered) (c : Char) : Gathered :=
  let next := 10 * g.significand + digitValue c
  if g.full ∨ significandLimit < next then { g with exponent := g.exponent + 1, full := true }
  else { g with significand := next }

/-- A digit after the point: once one does not fit, it and all after it are dropped. -/
def Gathered.addFraction (g : Gathered) (c : Char) : Gathered :=
  let next := 10 * g.significand + digitValue c
  if g.full ∨ significandLimit < next then { g with full := true }
  else { g with significand := next, exponent := g.exponent - 1 }

/-- Divides by a power of ten that may be past the range of numbers. -/
def divideByTens (m : Magnitude) (tens : Nat) : Magnitude :=
  if tens ≤ 308 then m.div (.ofDecimal 1 tens)
  else if m = 0 then 0
  else divideByTens (m.div (.ofDecimal 1 308)) (tens - 308)
termination_by tens

/-- The significand as a floating-point number, multiplied or divided by a power of ten with a rounding
of its own. Numbers too large have no value. -/
def Gathered.magnitude? (g : Gathered) : Option Magnitude :=
  let m := Magnitude.ofRatio g.significand 1
  if g.exponent < 0 then some (divideByTens m (-g.exponent).toNat)
  else if 308 < g.exponent then if m = 0 then some 0 else none
  else
    let product := m.mul (.ofDecimal 1 g.exponent)
    if product < .infinity then some product else none

/-- The largest exponent that can be written, `2 ^ 31 - 1`. -/
def exponentLimit : Nat := 0x7FFFFFFF

/-- Reads the digits of an exponent and gives the number, if its size is in range. -/
def readExponent (negative : Bool) (g : Gathered) (s : List Char) : Reading (JsonNumber × List Char) :=
  let (downward, rest) := splitSign s
  let digits := rest.takeWhile isDigit
  let rest' := rest.dropWhile isDigit
  let e := Nat.ofDigitChars 10 digits 0
  let finish (m? : Option Magnitude) : Reading (JsonNumber × List Char) :=
    match m? with
    | some m => .ok (.float (.ofParts negative m), rest')
    | none => .error rest'
  if digits.isEmpty then refuse rest
  else if exponentLimit < e then
    finish (if downward ∨ g.significand = 0 then some 0 else none)
  else
    finish ({ g with exponent := if downward then g.exponent - e else g.exponent + e } : Gathered).magnitude?

/-- Reads what may follow all digits: an exponent. -/
def readScaled (negative : Bool) (g : Gathered) (s : List Char) : Reading (JsonNumber × List Char) :=
  match s with
  | 'e' :: rest | 'E' :: rest => readExponent negative g rest
  | _ =>
    match g.magnitude? with
    | some m => .ok (.float (.ofParts negative m), s)
    | none => .error s

/-- The number of an integer literal without exponent. Zero with a minus sign and what is below
`-2 ^ 63` are no integers. -/
def integerNumber (negative : Bool) (n : Nat) : JsonNumber :=
  if !negative then .int n
  else if n = 0 ∨ 0x8000000000000000 < n then .float (.ofParts true (.ofRatio n 1))
  else .int (-n)

/-- Reads a number, without its minus sign. -/
def readUnsigned (negative : Bool) (s : List Char) : Reading (JsonNumber × List Char) :=
  let whole := s.takeWhile isDigit
  let rest := s.dropWhile isDigit
  match whole with
  | [] => refuse s
  | '0' :: _ :: _ => .error (s.drop 2)
  | _ =>
    let g := whole.foldl Gathered.addWhole {}
    match rest with
    | '.' :: afterPoint =>
      let fraction := afterPoint.takeWhile isDigit
      let rest := afterPoint.dropWhile isDigit
      if fraction.isEmpty then refuse rest
      else readScaled negative (fraction.foldl Gathered.addFraction { g with full := false }) rest
    | 'e' :: _ | 'E' :: _ => readScaled negative g rest
    | _ =>
      if g.full then readScaled negative g rest
      else .ok (integerNumber negative g.significand, rest)

def readNumber (s : List Char) : Reading (JsonNumber × List Char) :=
  match s with
  | '-' :: rest => readUnsigned true rest
  | _ => readUnsigned false s

mutual
/-- Reads a value. `depth` is the number of arrays and objects that may still be opened inside one
another; the fuel is more than twice the length of the text, so that it is never used up. -/
def readValue : (fuel depth : Nat) → List Char → Reading (Json × List Char)
  | 0, _, s => refuse s
  | fuel + 1, depth, s =>
    match skipSpace s with
    | [] => .error []
    | '"' :: rest =>
      (readString fuel rest).map fun (cs, rest) => (.string (String.ofList cs), rest)
    | '[' :: rest =>
      match depth with
      | 0 => .error rest
      | depth + 1 =>
        match skipSpace rest with
        | ']' :: rest => .ok (.array [], rest)
        | rest => (readItems fuel depth rest).map fun (js, rest) => (.array js, rest)
    | '{' :: rest =>
      match depth with
      | 0 => .error rest
      | depth + 1 =>
        match skipSpace rest with
        | '}' :: rest => .ok (.object [], rest)
        | rest => (readMembers fuel depth rest).map fun (ms, rest) => (.object ms, rest)
    | 't' :: rest => (readWord "rue".toList rest).map fun rest => (.bool true, rest)
    | 'f' :: rest => (readWord "alse".toList rest).map fun rest => (.bool false, rest)
    | 'n' :: rest => (readWord "ull".toList rest).map fun rest => (.null, rest)
    | c :: rest =>
      if c = '-' ∨ isDigit c then (readNumber (c :: rest)).map fun (n, rest) => (.number n, rest)
      else .error rest

/-- Reads the items of an array from the first on. -/
def readItems : (fuel depth : Nat) → List Char → Reading (List Json × List Char)
  | 0, _, s => refuse s
  | fuel + 1, depth, s => do
    let (j, rest) ← readValue fuel depth s
    match skipSpace rest with
    | ']' :: rest => return ([j], rest)
    | ',' :: rest =>
      let (js, rest) ← readItems fuel depth rest
      return (j :: js, rest)
    | rest => refuse rest

/-- Reads the members of an object from the first on. -/
def readMembers : (fuel depth : Nat) → List Char → Reading (List (String × Json) × List Char)
  | 0, _, s => refuse s
  | fuel + 1, depth, s => do
    let '"' :: rest := skipSpace s | refuse (skipSpace s)
    let (key, rest) ← readString fuel rest
    let ':' :: rest := skipSpace rest | refuse (skipSpace rest)
    let (j, rest) ← readValue fuel depth rest
    let member := (String.ofList key, j)
    match skipSpace rest with
    | '}' :: rest => return ([member], rest)
    | ',' :: rest =>
      let (ms, rest) ← readMembers fuel depth rest
      return (member :: ms, rest)
    | rest => refuse rest
end

/-- Arrays and objects may stand this deep inside one another. -/
def depthLimit : Nat := 127

/-- Reads a text that holds one value and nothing else. -/
def readAll (s : List Char) : Reading Json := do
  let (j, rest) ← readValue (2 * s.length + 2) depthLimit s
  match skipSpace rest with
  | [] => return j
  | rest => refuse rest

/-- The line that the first character of a suffix of a text comes after. -/
def lineBefore (s rest : List Char) : Nat :=
  1 + (s.count '\n' - rest.count '\n')

/-- Reads JSON text; a failure is the line of the character that cannot stand where it does. -/
def read (text : String) : Except Nat Json :=
  (readAll text.toList).mapError (lineBefore text.toList)

end DocForms.Json
