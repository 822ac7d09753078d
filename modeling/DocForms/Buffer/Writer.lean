import DocForms.Buffer.Slot
import DocForms.Failure

namespace DocForms.Buffer

def magic : Bytes := [0x44, 0x58, 0x4D, 0x42]

def version : Nat := 1

def headerSize : Nat := 64

/-- Where the fingerprint ends and what it covers begins. -/
def signedStart : Nat := 40

def contextEntrySize : Nat := 32

def sectionEntrySize : Nat := 32

def columnEntrySize : Nat := 20

/-- Two parts, one after the other. -/
def writePair {α β : Type} (first : Nat → α → Piece) (second : Nat → β → Piece)
    (heapSize : Nat) (pair : α × β) : Piece :=
  let a := first heapSize pair.1
  a.append (second (heapSize + a.heap.length) pair.2)

def writeContext (c : Context) : Piece :=
  writeAll (writePair writeText writeValue) 0 c.entries

def writeColumn (heapSize : Nat) (c : Column) : Piece :=
  let name := writeText heapSize c.name
  { name with table := name.table ++ c.type.code :: zeros 3 }

/-- Numbers of four bytes each. -/
def writeNumbers (numbers : List Nat) : Piece :=
  ⟨numbers.flatMap (bytesOf 4), [], numbers.map (Stated.mk longLimit)⟩

/-- The entry of a section with all that the section puts on the heap, and the tables that the entry
points at. -/
structure SectionPiece where
  entry : Piece
  columns : Bytes
  rows : Bytes
deriving DecidableEq, Repr

/-- The space that the column entries of a section take. -/
def columnsSize (s : Section) : Nat :=
  s.columns.length * columnEntrySize

/-- The space that the rows of a section take. -/
def rowsSize (s : Section) : Nat :=
  s.rows.length * (s.storedWidth * slotSize)

/-- Writes a section whose column entries and rows start at the given places. -/
def writeSection (heapSize columnsStart rowsStart : Nat) (s : Section) : SectionPiece :=
  let id := writeText heapSize s.id
  let tables := writeNumbers [columnsStart, s.columns.length, rowsStart, s.rows.length]
  let columns := writeAll writeColumn (heapSize + id.heap.length) s.columns
  let rows := writeAll writeItems (heapSize + id.heap.length + columns.heap.length) s.rows
  { entry :=
      ⟨id.table ++ tables.table, id.heap ++ columns.heap ++ rows.heap,
        id.stated ++ tables.stated ++ columns.stated ++ rows.stated⟩
    columns := columns.table
    rows := rows.table }

def writeSections : (heapSize columnsStart rowsStart : Nat) → List Section → List SectionPiece
  | _, _, _, [] => []
  | heapSize, columnsStart, rowsStart, s :: ss =>
    let first := writeSection heapSize columnsStart rowsStart s
    first :: writeSections (heapSize + first.entry.heap.length) (columnsStart + columnsSize s)
      (rowsStart + rowsSize s) ss

/-- Where the tables of sections end that stand one after another. -/
def placeAfter (size : Section → Nat) (start : Nat) (ss : List Section) : Nat :=
  ss.foldl (fun place s => place + size s) start

/-- The places of the tables follow from the sizes of those before them. -/
def sectionsPlace (d : Document) : Nat :=
  headerSize + d.context.size * contextEntrySize

def columnsPlace (d : Document) : Nat :=
  sectionsPlace d + d.sections.length * sectionEntrySize

def rowsPlace (d : Document) : Nat :=
  placeAfter columnsSize (columnsPlace d) d.sections

def heapPlace (d : Document) : Nat :=
  placeAfter rowsSize (rowsPlace d) d.sections

def sectionPieces (d : Document) : List SectionPiece :=
  writeSections (writeContext d.context).heap.length (columnsPlace d) (rowsPlace d) d.sections

/-- The entries of the context and of the sections, with the whole heap. -/
def entries (d : Document) : Piece :=
  (writeContext d.context).append (.concat ((sectionPieces d).map SectionPiece.entry))

/-- The numbers of the header. -/
def header (d : Document) : Piece :=
  writeNumbers [headerSize, d.context.size, sectionsPlace d, d.sections.length, heapPlace d,
    heapPlace d + (entries d).heap.length]

/-- All that comes after the fingerprint. -/
def body (d : Document) : Piece where
  table := (header d).table ++ (entries d).table ++ (sectionPieces d).flatMap SectionPiece.columns ++
    (sectionPieces d).flatMap SectionPiece.rows
  heap := (entries d).heap
  stated := (entries d).stated ++ (header d).stated

/-- What the fingerprint covers. -/
def signedPart (d : Document) : Bytes :=
  (body d).table ++ (body d).heap

/-- The buffer of a document, under the given fingerprint of what is signed: a header of sixty-four
bytes, then tables of fixed-size entries, then the heap. All numbers are little-endian; the places of
tables count from the start of the buffer.

    0   "DXMB"
    4   version, two bytes, and two zero bytes
    8   fingerprint of all that follows it
    40  place and count of the context entries
    48  place and count of the section entries
    56  place of the heap
    60  size of the buffer

A context entry is the slot of its key and the slot of its value. A section entry is the slot of its id,
then place and count of its column entries and of its rows. A column entry is the slot of its name, the
code of its type and three zero bytes. A row is a run of slots. -/
def bufferOf (d : Document) (fingerprintOf : ByteArray → Fingerprint := Fingerprint.of) :
    ByteArray :=
  let signed := signedPart d
  arrayOf (magic ++ bytesOf 2 version ++ zeros 2 ++
    (fingerprintOf (arrayOf signed)).bytes.toList ++ signed)

/-- Writes a valid document, unless it has a number too large for its bytes. -/
def write (d : Document) (fingerprintOf : ByteArray → Fingerprint := Fingerprint.of) :
    Except Failure ByteArray := do
  d.requireValid
  match (body d).stated.find? fun n => !n.fits with
  | some n => .error (.encoding [.tooLarge n.number])
  | none => .ok (bufferOf d fingerprintOf)

end DocForms.Buffer
