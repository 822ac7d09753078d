import DocForms.Json.Basic

namespace DocForms.Json
open Text Number

/-- Numbers are positional from `10 ^ -5` on and exponents carry their sign; a half between two digits
goes to the even one. -/
def floatStyle : DoubleStyle := ⟨-5, true, .even⟩

def numberText : JsonNumber → List Char
  | .int n => intText n
  | .float x => doubleText floatStyle x

def escapedChar (c : Char) : List Char :=
  if c = '"' then ['\\', '"']
  else if c = '\\' then ['\\', '\\']
  else if c = '\x08' then ['\\', 'b']
  else if c = '\x0c' then ['\\', 'f']
  else if c = '\n' then ['\\', 'n']
  else if c = '\r' then ['\\', 'r']
  else if c = '\t' then ['\\', 't']
  else if c.toNat < 0x20 then ['\\', 'u', '0', '0', hexDigit (c.toNat / 16), hexDigit (c.toNat % 16)]
  else [c]

def stringText (s : String) : List Char :=
  '"' :: s.toList.flatMap escapedChar ++ ['"']

mutual
/-- The text on one line, without blanks. -/
def compactText : Json → List Char
  | .null => "null".toList
  | .bool b => Value.boolText b
  | .number n => numberText n
  | .string s => stringText s
  | .array [] => ['[', ']']
  | .array (j :: js) => '[' :: compactText j ++ compactItems js
  | .object [] => ['{', '}']
  | .object ((key, j) :: ms) => '{' :: stringText key ++ ':' :: compactText j ++ compactMembers ms

def compactItems : List Json → List Char
  | [] => [']']
  | j :: js => ',' :: compactText j ++ compactItems js

def compactMembers : List (String × Json) → List Char
  | [] => ['}']
  | (key, j) :: ms => ',' :: stringText key ++ ':' :: compactText j ++ compactMembers ms
end

/-- The start of a line at a depth. -/
def newLine (depth : Nat) : List Char :=
  '\n' :: List.replicate (2 * depth) ' '

mutual
/-- The text with every item and member on a line of its own. -/
def prettyText (depth : Nat) : Json → List Char
  | .null => "null".toList
  | .bool b => Value.boolText b
  | .number n => numberText n
  | .string s => stringText s
  | .array [] => ['[', ']']
  | .array (j :: js) =>
    '[' :: newLine (depth + 1) ++ prettyText (depth + 1) j ++ prettyItems depth js
  | .object [] => ['{', '}']
  | .object ((key, j) :: ms) =>
    '{' :: newLine (depth + 1) ++ stringText key ++ ':' :: ' ' :: prettyText (depth + 1) j ++
      prettyMembers depth ms

def prettyItems (depth : Nat) : List Json → List Char
  | [] => newLine depth ++ [']']
  | j :: js => ',' :: newLine (depth + 1) ++ prettyText (depth + 1) j ++ prettyItems depth js

def prettyMembers (depth : Nat) : List (String × Json) → List Char
  | [] => newLine depth ++ ['}']
  | (key, j) :: ms =>
    ',' :: newLine (depth + 1) ++ stringText key ++ ':' :: ' ' :: prettyText (depth + 1) j ++
      prettyMembers depth ms
end

def compact (j : Json) : String :=
  String.ofList (compactText j)

def pretty (j : Json) : String :=
  String.ofList (prettyText 0 j)

end DocForms.Json
