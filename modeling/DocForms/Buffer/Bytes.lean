namespace DocForms.Buffer

abbrev Bytes := List UInt8

/-- A number in a fixed count of bytes, least significant first. -/
def bytesOf : (count n : Nat) → Bytes
  | 0, _ => []
  | count + 1, n => UInt8.ofNat (n % 256) :: bytesOf count (n / 256)

/-- The number that bytes stand for. -/
def numberOf : Bytes → Nat
  | [] => 0
  | b :: bs => b.toNat + 256 * numberOf bs

/-- The bytes from a position on, if there are as many. -/
def slice? (b : ByteArray) (position count : Nat) : Option (Vector UInt8 count) :=
  if h : position + count ≤ b.size then
    some ⟨(b.extract position (position + count)).data, by
      rw [ByteArray.size_data, ByteArray.size_extract]
      omega⟩
  else none

/-- All bytes from a position on, which may be the end. -/
def sliceFrom? (b : ByteArray) (position : Nat) : Option ByteArray :=
  if position ≤ b.size then some (b.extract position b.size) else none

/-- The number in a fixed count of bytes at a position. -/
def numberAt? (b : ByteArray) (position count : Nat) : Option Nat :=
  (slice? b position count).map fun bytes => numberOf bytes.toList

def arrayOf (bytes : Bytes) : ByteArray :=
  ⟨bytes.toArray⟩

/-- The text that bytes encode in UTF-8. -/
def textOf? (bytes : Bytes) : Option String :=
  String.fromUTF8? (arrayOf bytes)

def bytesOfText (s : String) : Bytes :=
  s.toUTF8.data.toList

end DocForms.Buffer
