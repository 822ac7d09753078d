import DocForms.Sha256
import DocForms.Text.Character

namespace DocForms
open Text

/-- The digest of some content. Two contents with one fingerprint are taken to be the same. -/
structure Fingerprint where
  bytes : Vector UInt8 32
deriving DecidableEq, Repr, Inhabited

namespace Fingerprint

def of (content : ByteArray) : Fingerprint :=
  ⟨Sha256.digest content⟩

def ofText (content : String) : Fingerprint :=
  of content.toUTF8

def byteDigits (b : UInt8) : List Char :=
  [hexDigit (b.toNat / 16), hexDigit (b.toNat % 16)]

/-- Sixty-four lower-case hexadecimal digits. -/
def text (f : Fingerprint) : String :=
  String.ofList (f.bytes.toList.flatMap byteDigits)

/-- The first bytes, for short mention. -/
def briefText (f : Fingerprint) : String :=
  "Fingerprint(" ++ String.ofList ((f.bytes.toList.take 4).flatMap byteDigits) ++ "..)"

end Fingerprint
end DocForms
