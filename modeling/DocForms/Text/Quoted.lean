import DocForms.Text.Message

namespace DocForms.Text

/-- Why a quoted field cannot be read. -/
inductive QuoteFault
  | textAfterQuote (rest : List Char)
  | notACodePoint (digits : List Char)
  | unknownEscape (c : Char)
  | unterminated
deriving DecidableEq, Repr

namespace QuoteFault

def message : QuoteFault → String
  | .textAfterQuote rest =>
    "unexpected text after closing quote: " ++ String.ofList (shownChars rest)
  | .notACodePoint digits => "invalid unicode escape \\u" ++ String.ofList digits
  | .unknownEscape c => "invalid escape \\" ++ String.singleton c
  | .unterminated => "unterminated quoted string"

end QuoteFault

/-- The four hexadecimal digits of a control character's escape. -/
def codeDigits (c : Char) : List Char :=
  let n := c.toNat
  [hexDigit (n / 4096 % 16), hexDigit (n / 256 % 16), hexDigit (n / 16 % 16), hexDigit (n % 16)]

def escapedChar (c : Char) : List Char :=
  if c = '"' then ['\\', '"']
  else if c = '\\' then ['\\', '\\']
  else if c = '\n' then ['\\', 'n']
  else if c = '\r' then ['\\', 'r']
  else if c = '\t' then ['\\', 't']
  else if isControl c then '\\' :: 'u' :: codeDigits c
  else [c]

/-- A quotation mark, a backslash and every control character are written as escapes, so that a quoted
field never breaks the line it stands on. -/
def quote (s : List Char) : List Char :=
  '"' :: s.flatMap escapedChar ++ ['"']

/-- The number that a run of hexadecimal digits denotes, most significant digit first. -/
def hexNumber (digits : List Char) : Option Nat :=
  digits.foldlM (fun n c => (hexValue c).map (16 * n + ·)) 0

/-- The character with the given number; surrogates and numbers past the last plane have none. -/
def charOfNumber (n : Nat) : Option Char :=
  if n.isValidChar then some (Char.ofNat n) else none

/-- The character named by the four characters after `\u`. A plus sign may stand for the first of the
four digits. -/
def charOfCode (a b c d : Char) : Option Char := do
  let n ← if a = '+' then hexNumber [b, c, d] else hexNumber [a, b, c, d]
  charOfNumber n

/-- The character that a one-letter escape denotes. -/
def charOfEscape (c : Char) : Option Char :=
  match c with
  | '"' => some '"'
  | '\\' => some '\\'
  | 'n' => some '\n'
  | 'r' => some '\r'
  | 't' => some '\t'
  | _ => none

/-- Reads what follows the opening quotation mark; the field must end with the closing one. -/
def readQuoted : List Char → Except QuoteFault (List Char)
  | [] => .error .unterminated
  | '"' :: rest => if rest.isEmpty then .ok [] else .error (.textAfterQuote rest)
  | '\\' :: 'u' :: a :: b :: c :: d :: rest =>
    match charOfCode a b c d with
    | some x => (readQuoted rest).map (x :: ·)
    | none => .error (.notACodePoint [a, b, c, d])
  | '\\' :: 'u' :: rest => .error (.notACodePoint rest)
  | ['\\'] => .error .unterminated
  | '\\' :: e :: rest =>
    match charOfEscape e with
    | some x => (readQuoted rest).map (x :: ·)
    | none => .error (.unknownEscape e)
  | c :: rest => (readQuoted rest).map (c :: ·)

def isQuoted (field : List Char) : Bool :=
  field.head? = some '"'

/-- Reads a bare or quoted field back into its text. -/
def unquote : List Char → Except QuoteFault (List Char)
  | '"' :: body => readQuoted body
  | field => .ok field

/-- A field must be quoted in every text form if it is empty, is bounded by a blank, begins like a
heading or an array, or holds a separator, a control or one of the characters in `extra`. -/
def needsQuotes (extra : List Char) (s : List Char) : Bool :=
  match s with
  | [] => true
  | first :: rest =>
    isBlank first || isBlank ((first :: rest).getLastD first) || first == '#' || first == '*' ||
      s.any fun c => c == '|' || c == '"' || c == '\\' || isControl c || extra.contains c

def quoteIf (needed : Bool) (s : List Char) : List Char :=
  if needed then quote s else s

end DocForms.Text
