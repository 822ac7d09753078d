import DocForms.Json.Parser

namespace DocForms.Json
open Text Number

/-- What a text holds. `unreadable` stands for a part that keeps to the grammar and has no value: a number
out of range, half of a pair of surrogates, a string that is not UTF-8, or what is nested too deep. -/
inductive Outline
  | scalar (j : Json)
  | array (items : List Outline)
  | object (members : List (String × Outline))
  | unreadable
deriving Inhabited

/-- Takes a string off the front of what follows its opening quotation mark: the characters up to the
closing one, as they are written. Escapes need to have the right form and no more. -/
def stringText? : List Char → Option (List Char × List Char)
  | '"' :: rest => some (['"'], rest)
  | '\\' :: 'u' :: a :: b :: c :: d :: rest =>
    if (hexNumber [a, b, c, d]).isSome then
      (stringText? rest).map fun (cs, rest) => ('\\' :: 'u' :: a :: b :: c :: d :: cs, rest)
    else none
  | '\\' :: e :: rest =>
    if (simpleEscape? e).isSome then (stringText? rest).map fun (cs, rest) => ('\\' :: e :: cs, rest)
    else none
  | c :: rest =>
    if c.toNat < 0x20 then none else (stringText? rest).map fun (cs, rest) => (c :: cs, rest)
  | [] => none

/-- Whether a text is nothing or an exponent. -/
def isExponentText : List Char → Bool
  | [] => true
  | c :: rest =>
    let digits := (splitSign rest).2
    (c == 'e' || c == 'E') && !digits.isEmpty && digits.all isDigit

/-- Whether a text is nothing or what may follow the whole part of a number. -/
def isFractionText : List Char → Bool
  | '.' :: rest => rest.head?.any isDigit && isExponentText (rest.dropWhile isDigit)
  | s => isExponentText s

/-- Whether a text is a number. -/
def isNumberText (s : List Char) : Bool :=
  match (splitMinus s).takeWhile isDigit with
  | [] => false
  | '0' :: _ :: _ => false
  | _ => isFractionText ((splitMinus s).dropWhile isDigit)
where
  splitMinus : List Char → List Char
    | '-' :: rest => rest
    | s => s

def isNumberMark (c : Char) : Bool :=
  isDigit c || c == '-' || c == '+' || c == '.' || c == 'e' || c == 'E'

def isWord (s : List Char) : Bool :=
  s == "true".toList || s == "false".toList || s == "null".toList

/-- Takes a string, a number or a word off the front of a text, as it is written. -/
def scalarText? : List Char → Option (List Char × List Char)
  | [] => none
  | '"' :: rest => (stringText? rest).map fun (cs, rest) => ('"' :: cs, rest)
  | c :: rest =>
    let (text, rest) := (c :: rest).span (if isLetter c then isLetter else isNumberMark)
    if isNumberText text || isWord text then some (text, rest) else none

section
-- `decode` gives the text that a run of characters stands for.
variable (decode : List Char → Option String)

/-- The value of a scalar, if it has one. -/
def scalarValue? (text : List Char) : Option Json := do
  (read (← decode text)).toOption

/-- Takes the key of a member off the front of a text, with the colon behind it. A key that has no value
is none. -/
def readKey (s : List Char) : Option (Option String × List Char) := do
  let '"' :: rest := skipSpace s | none
  let (cs, rest) ← stringText? rest
  let ':' :: rest := skipSpace rest | none
  match scalarValue? decode ('"' :: cs) with
  | some (.string key) => return (some key, rest)
  | _ => return (none, rest)

/-- An object whose keys may lack a value. -/
def outlineObject (members : List (Option String × Outline)) : Outline :=
  match members.mapM fun (key?, o) => key?.map (·, o) with
  | some members => .object members
  | none => .unreadable

mutual
/-- Reads a value. `depth` is the number of arrays and objects that may be opened inside one another
before they are too deep to have a value; the fuel is more than twice the length of the text, so that it
is never used up. -/
def readOutline : (fuel depth : Nat) → List Char → Option (Outline × List Char)
  | 0, _, _ => none
  | fuel + 1, depth, s => do
    match skipSpace s with
    | '[' :: rest =>
      let (items, rest) ← match skipSpace rest with
        | ']' :: rest => some ([], rest)
        | rest => readOutlines fuel (depth - 1) rest
      return (if depth = 0 then .unreadable else .array items, rest)
    | '{' :: rest =>
      let (members, rest) ← match skipSpace rest with
        | '}' :: rest => some ([], rest)
        | rest => readOutlineMembers fuel (depth - 1) rest
      return (if depth = 0 then .unreadable else outlineObject members, rest)
    | s =>
      let (text, rest) ← scalarText? s
      return ((scalarValue? decode text).elim .unreadable .scalar, rest)

/-- Reads the items of an array from the first on. -/
def readOutlines : (fuel depth : Nat) → List Char → Option (List Outline × List Char)
  | 0, _, _ => none
  | fuel + 1, depth, s => do
    let (o, rest) ← readOutline fuel depth s
    match skipSpace rest with
    | ']' :: rest => return ([o], rest)
    | ',' :: rest =>
      let (os, rest) ← readOutlines fuel depth rest
      return (o :: os, rest)
    | _ => none

/-- Reads the members of an object from the first on. -/
def readOutlineMembers : (fuel depth : Nat) → List Char →
    Option (List (Option String × Outline) × List Char)
  | 0, _, _ => none
  | fuel + 1, depth, s => do
    let (key?, rest) ← readKey decode s
    let (o, rest) ← readOutline fuel depth rest
    match skipSpace rest with
    | '}' :: rest => return ([(key?, o)], rest)
    | ',' :: rest =>
      let (ms, rest) ← readOutlineMembers fuel depth rest
      return ((key?, o) :: ms, rest)
    | _ => none
end

/-- The outline of a text that holds one value and nothing else. -/
def outlineOf? (s : List Char) : Option Outline := do
  let (o, rest) ← readOutline decode (2 * s.length + 2) depthLimit s
  if (skipSpace rest).isEmpty then some o else none

end

namespace Outline

def ofText? (text : String) : Option Outline :=
  outlineOf? (fun cs => some (String.ofList cs)) text.toList

/-- Each byte as the character of its number. -/
def byteChars (content : ByteArray) : List Char :=
  content.data.toList.map fun b => Char.ofNat b.toNat

/-- The text whose bytes are given as characters. -/
def decodeByteChars (cs : List Char) : Option String :=
  String.fromUTF8? ⟨(cs.map fun c => UInt8.ofNat c.toNat).toArray⟩

/-- The outline of what may be text in parts only. The marks of the grammar are bytes below 128, and
UTF-8 has such bytes for nothing else, so that the grammar can be followed byte by byte. -/
def ofBytes? (content : ByteArray) : Option Outline :=
  match String.fromUTF8? content with
  | some text => ofText? text
  | none => outlineOf? decodeByteChars (byteChars content)

mutual
/-- The value, if all of it can be read. -/
def toJson? : Outline → Option Json
  | .scalar j => some j
  | .array items => (toJsons? items).map .array
  | .object members => (toMembers? members).map .object
  | .unreadable => none

def toJsons? : List Outline → Option (List Json)
  | [] => some []
  | o :: os => do return (← toJson? o) :: (← toJsons? os)

def toMembers? : List (String × Outline) → Option (List (String × Json))
  | [] => some []
  | (key, o) :: ms => do return (key, ← toJson? o) :: (← toMembers? ms)
end

/-- What stands under a name that occurs exactly once. -/
def onlyMember? (members : List (String × Outline)) (name : String) : Option Outline :=
  match members.filter (·.1 == name) with
  | [(_, o)] => some o
  | _ => none

/-- The parts of a structure with the given field names: members of an object, whose other members do
not matter, or the items of an array in the order of the fields. -/
def fields? (names : List String) : Outline → Option (List Outline)
  | .object members => names.mapM (onlyMember? members)
  | .array items => if items.length = names.length then some items else none
  | _ => none

def items? : Outline → Option (List Outline)
  | .array items => some items
  | _ => none

end Outline
end DocForms.Json
