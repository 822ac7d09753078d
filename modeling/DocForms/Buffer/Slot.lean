import DocForms.Buffer.Bytes
import DocForms.Document.Basic

namespace DocForms.Buffer
open Number

abbrev slotSize : Nat := 16

/-- The sixteen bytes of one value, of which the first tells the kind. Short strings stand in the slot
itself; longer strings and the slots of array items stand in the heap, and the slot holds their place
counted from the start of the heap.

    kind  value          payload
    0     short string   size at 1, bytes from 2
    1     string         heap offset at 4, size at 8
    2     integer        8 bytes at 8
    3     float          8 bytes at 8
    4     truth value    0 or 1 at 8
    5     array          heap offset at 4, count at 8
-/
abbrev Slot := Vector UInt8 slotSize

/-- The longest string, in bytes, that stands in its slot. -/
def inlineLimit : Nat := 14

/-- The largest number of two bytes. -/
def shortLimit : Nat := 0xFFFF

/-- The largest number of four bytes. -/
def longLimit : Nat := 0xFFFFFFFF

/-- A number that a buffer states, and the largest that its bytes can hold. -/
structure Stated where
  limit : Nat
  number : Nat
deriving DecidableEq, Repr

def Stated.fits (n : Stated) : Bool :=
  n.number ≤ n.limit

/-- Bytes for a table, the bytes that they need in the heap, and the numbers that have to fit for the
bytes to mean what was written, in the order of writing. -/
structure Piece where
  table : Bytes
  heap : Bytes
  stated : List Stated
deriving DecidableEq, Repr

def Piece.empty : Piece := ⟨[], [], []⟩

/-- One piece after another. -/
def Piece.append (p q : Piece) : Piece :=
  ⟨p.table ++ q.table, p.heap ++ q.heap, p.stated ++ q.stated⟩

def Piece.concat : List Piece → Piece
  | [] => .empty
  | p :: ps => p.append (concat ps)

/-- Writes parts one after another; each is told where the heap ends when its turn comes. -/
def writeAll {α : Type} (write : Nat → α → Piece) : (heapSize : Nat) → List α → Piece
  | _, [] => .empty
  | heapSize, a :: as =>
    let first := write heapSize a
    first.append (writeAll write (heapSize + first.heap.length) as)

def zeros (count : Nat) : Bytes :=
  List.replicate count 0

/-- A slot with a number of eight bytes in its second half. -/
def wordSlot (kind : UInt8) (n : Nat) : Bytes :=
  kind :: zeros 7 ++ bytesOf 8 n

/-- A slot that points into the heap. -/
def heapSlot (kind : UInt8) (offset count : Nat) : Bytes :=
  kind :: zeros 3 ++ bytesOf 4 offset ++ bytesOf 2 count ++ zeros 6

def writeText (heapSize : Nat) (s : String) : Piece :=
  let bytes := bytesOfText s
  if bytes.length ≤ inlineLimit then
    ⟨0 :: UInt8.ofNat bytes.length :: bytes ++ zeros (inlineLimit - bytes.length), [], []⟩
  else ⟨heapSlot 1 heapSize bytes.length, bytes, [⟨shortLimit, bytes.length⟩, ⟨longLimit, heapSize⟩]⟩

mutual
/-- The slot of a value. What the items of an array put on the heap comes before their slots. -/
def writeValue (heapSize : Nat) : Value → Piece
  | .string s => writeText heapSize s
  | .int n => ⟨wordSlot 2 n.toUInt64.toNat, [], []⟩
  | .float x => ⟨wordSlot 3 x.bits.toNat, [], []⟩
  | .bool b => ⟨wordSlot 4 b.toNat, [], []⟩
  | .array items =>
    let slots := writeItems heapSize items
    let start := heapSize + slots.heap.length
    ⟨heapSlot 5 start items.length, slots.heap ++ slots.table,
      ⟨shortLimit, items.length⟩ :: slots.stated ++ [⟨longLimit, start⟩]⟩

def writeItems (heapSize : Nat) : List Value → Piece
  | [] => .empty
  | v :: vs =>
    let first := writeValue heapSize v
    first.append (writeItems (heapSize + first.heap.length) vs)
end

/-- What a slot holds. Items of an array stay in the buffer. -/
inductive Item
  | string (s : String)
  | int (n : Int64)
  | float (x : Double)
  | bool (b : Bool)
  | array (start count : Nat)
deriving DecidableEq, Repr

/-- The number in some bytes of a slot. -/
def slotNumber (slot : Slot) (position count : Nat) : Nat :=
  numberOf ((slot.toList.drop position).take count)

/-- Reads the slot at a position of a buffer whose heap starts at `heap`. Whatever the slot points at
must lie inside the buffer. -/
def readSlot? (b : ByteArray) (heap position : Nat) : Option Item := do
  let slot ← slice? b position slotSize
  let word := slotNumber slot 8 8
  let target := heap + slotNumber slot 4 4
  let count := slotNumber slot 8 2
  match slot[0] with
  | 0 =>
    let size := slotNumber slot 1 1
    if size ≤ inlineLimit then (textOf? ((slot.toList.drop 2).take size)).map .string else none
  | 1 => (textOf? (← slice? b target count).toList).map .string
  | 2 => some (.int (UInt64.ofNat word).toInt64)
  | 3 => some (.float ⟨UInt64.ofNat word⟩)
  | 4 =>
    match slotNumber slot 8 1 with
    | 0 => some (.bool false)
    | 1 => some (.bool true)
    | _ => none
  | 5 => if target + count * slotSize ≤ b.size then some (.array target count) else none
  | _ => none

def readName? (b : ByteArray) (heap position : Nat) : Option String :=
  match readSlot? b heap position with
  | some (.string s) => some s
  | _ => none

namespace Item

def isArray : Item → Bool
  | .array _ _ => true
  | _ => false

/-- The item of an array at an index. -/
def get? (b : ByteArray) (heap : Nat) (item : Item) (index : Nat) : Option Item :=
  match item with
  | .array start count =>
    if index < count then readSlot? b heap (start + index * slotSize) else none
  | _ => none

def scalar? : Item → Option Value
  | .string s => some (.string s)
  | .int n => some (.int n)
  | .float x => some (.float x)
  | .bool b => some (.bool b)
  | .array _ _ => none

/-- The value that a slot holds; arrays hold scalars only. -/
def toValue (b : ByteArray) (heap : Nat) (item : Item) : Value :=
  match item with
  | .array _ count =>
    .array ((List.range count).filterMap fun i => (item.get? b heap i).bind scalar?)
  | .string s => .string s
  | .int n => .int n
  | .float x => .float x
  | .bool c => .bool c

end Item
end DocForms.Buffer
