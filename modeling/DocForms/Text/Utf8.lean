namespace DocForms.Text

/-- How a byte sequence stops being UTF-8: after `validUpTo` good bytes comes a bad piece of the given
size, or the sequence ends inside a character. -/
structure EncodingFault where
  validUpTo : Nat
  badSize? : Option Nat
deriving DecidableEq, Repr

def EncodingFault.message (f : EncodingFault) : String :=
  match f.badSize? with
  | some size => s!"invalid utf-8 sequence of {size} bytes from index {f.validUpTo}"
  | none => s!"incomplete utf-8 byte sequence from index {f.validUpTo}"

/-- The bytes that a character may continue with. -/
structure ByteRange where
  low : UInt8
  high : UInt8
deriving DecidableEq, Repr

/-- A byte that is not the first of a character. -/
def continuation : ByteRange := ⟨0x80, 0xBF⟩

def ByteRange.contains (r : ByteRange) (b : UInt8) : Bool :=
  r.low ≤ b && b ≤ r.high

/-- What must follow the first byte of a character; no character starts with any other byte. -/
def tailOf? (first : UInt8) : Option (List ByteRange) :=
  if first ≤ 0x7F then some []
  else if 0xC2 ≤ first ∧ first ≤ 0xDF then some [continuation]
  else if first = 0xE0 then some [⟨0xA0, 0xBF⟩, continuation]
  else if first = 0xED then some [⟨0x80, 0x9F⟩, continuation]
  else if 0xE1 ≤ first ∧ first ≤ 0xEF then some [continuation, continuation]
  else if first = 0xF0 then some [⟨0x90, 0xBF⟩, continuation, continuation]
  else if 0xF1 ≤ first ∧ first ≤ 0xF3 then some [continuation, continuation, continuation]
  else if first = 0xF4 then some [⟨0x80, 0x8F⟩, continuation, continuation]
  else none

/-- Looks for the first fault from a position on. `owed` are the bytes that the character at hand still
needs after the `taken` bytes it has. -/
def scanUtf8 (start taken : Nat) : (owed : List ByteRange) → List UInt8 → Option EncodingFault
  | [], [] => none
  | _ :: _, [] => some ⟨start, none⟩
  | r :: owed, b :: bs =>
    if r.contains b then scanUtf8 start (taken + 1) owed bs else some ⟨start, some taken⟩
  | [], b :: bs =>
    match tailOf? b with
    | some owed => scanUtf8 (start + taken) 1 owed bs
    | none => some ⟨start + taken, some 1⟩

/-- The text that bytes encode. -/
def decodeUtf8 (bytes : ByteArray) : Except EncodingFault String :=
  match String.fromUTF8? bytes with
  | some s => .ok s
  | none => .error ((scanUtf8 0 0 [] bytes.data.toList).getD ⟨bytes.size, none⟩)

end DocForms.Text
