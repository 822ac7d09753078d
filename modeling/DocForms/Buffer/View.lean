import DocForms.Buffer.Writer

namespace DocForms.Buffer

/-- A checked buffer and the numbers of its header. The buffer was checked as a whole, so that every entry
can be read where it stands. -/
structure View where
  buffer : ByteArray
  fingerprint : Fingerprint
  contextStart : Nat
  contextSize : Nat
  sectionsStart : Nat
  sectionCount : Nat
  heapStart : Nat

def refuse {α : Type} (fault : BufferFault) : Except BufferFault α :=
  .error fault

def require (p : Prop) [Decidable p] (fault : BufferFault) : Except BufferFault Unit :=
  if p then .ok () else refuse fault

def orRefuse {α : Type} (fault : BufferFault) (a? : Option α) : Except BufferFault α :=
  match a? with
  | some a => .ok a
  | none => refuse fault

/-- A table must lie between the header and the heap. -/
def requireTable (v : View) (fault : BufferFault) (start count size : Nat) :
    Except BufferFault Unit :=
  require (headerSize ≤ start ∧ start + count * size ≤ v.heapStart) fault

def checkName (v : View) (position : Nat) : Except BufferFault Unit :=
  require (readName? v.buffer v.heapStart position).isSome (.malformedName position)

/-- Whether a scalar may stand in a column of the given type, or anywhere. -/
def fits : Option ColumnType → Item → Bool
  | none, item => !item.isArray
  | some .string, .string _ => true
  | some .int, .int _ | some .base62, .int _ => true
  | some .float, .float _ => true
  | some .bool, .bool _ => true
  | some _, _ => false

/-- An array must fit by each of its items. -/
def fitsAll (v : View) (type? : Option ColumnType) (item : Item) : Bool :=
  match item with
  | .array _ count =>
    (List.range count).all fun i => (item.get? v.buffer v.heapStart i).any (fits type?)
  | _ => fits type? item

def checkValue (v : View) (type? : Option ColumnType) (position : Nat) :
    Except BufferFault Unit := do
  let item ← orRefuse (.malformedValue position) (readSlot? v.buffer v.heapStart position)
  require (fitsAll v type? item) (.wrongType position)

/-- The places of the entries of a table. -/
def places (start count size : Nat) : List Nat :=
  (List.range count).map fun i => start + i * size

def checkContextEntry (v : View) (position : Nat) : Except BufferFault Unit := do
  checkName v position
  checkValue v none (position + slotSize)

/-- Checks a column entry and gives its type. -/
def checkColumn (v : View) (position : Nat) : Except BufferFault ColumnType := do
  checkName v position
  let code ← orRefuse (.overrun (position + slotSize)) v.buffer[position + slotSize]?
  orRefuse (.unknownColumnType code.toNat) (ColumnType.ofCode? code)

/-- Checks a slot of the rows against the type of its column. The types are those of the stored
columns, which the slots repeat row after row. -/
def checkCell (v : View) (types : List ColumnType) (start index : Nat) :
    Except BufferFault Unit := do
  let position := start + index * slotSize
  let type ← orRefuse (.overrun position) types[index % types.length]?
  checkValue v (some type) position

def checkSection (v : View) (position : Nat) : Except BufferFault Unit := do
  checkName v position
  let field (offset : Nat) := orRefuse .truncatedSection (numberAt? v.buffer (position + offset) 4)
  let columnsStart ← field 16
  let columnCount ← field 20
  let rowsStart ← field 24
  let rowCount ← field 28
  requireTable v .columnsOutOfBounds columnsStart columnCount columnEntrySize
  let types ← (places columnsStart columnCount columnEntrySize).mapM (checkColumn v)
  let stored := types.filter ColumnType.isStored
  requireTable v .rowsOutOfBounds rowsStart rowCount (stored.length * slotSize)
  (List.range (rowCount * stored.length)).forM (checkCell v stored rowsStart)

/-- Every table and every slot that a table holds can be read. -/
def checkStructure (v : View) : Except BufferFault Unit := do
  requireTable v .contextOutOfBounds v.contextStart v.contextSize contextEntrySize
  (places v.contextStart v.contextSize contextEntrySize).forM (checkContextEntry v)
  requireTable v .sectionsOutOfBounds v.sectionsStart v.sectionCount sectionEntrySize
  (places v.sectionsStart v.sectionCount sectionEntrySize).forM (checkSection v)

/-- A number of the header. -/
def headerField (b : ByteArray) (position : Nat) : Except BufferFault Nat :=
  orRefuse .truncatedHeader (numberAt? b position 4)

/-- Bytes that the size of the header secures. -/
def headerBytes (b : ByteArray) (position count : Nat) : Except BufferFault (Vector UInt8 count) :=
  orRefuse (.overrun position) (slice? b position count)

def view? (b : ByteArray) (fingerprintOf : ByteArray → Fingerprint := Fingerprint.of) :
    Except BufferFault View := do
  require (headerSize ≤ b.size) (.tooShort b.size)
  require ((← headerBytes b 0 4).toList = magic) .badMagic
  let stated := (numberAt? b 4 2).getD 0
  require (stated = version) (.unsupportedVersion stated)
  require ((← headerBytes b 6 2).toList = zeros 2) .reservedNotZero
  let size ← headerField b 60
  require (size = b.size) (.sizeMismatch size b.size)
  let fingerprint : Fingerprint := ⟨← headerBytes b 8 32⟩
  let signed ← orRefuse (.overrun signedStart) (sliceFrom? b signedStart)
  require (fingerprintOf signed = fingerprint) .fingerprintMismatch
  let heapStart ← headerField b 56
  require (headerSize ≤ heapStart ∧ heapStart ≤ b.size) (.heapOutOfBounds heapStart)
  let v : View :=
    { buffer := b
      fingerprint
      contextStart := ← headerField b 40
      contextSize := ← headerField b 44
      sectionsStart := ← headerField b 48
      sectionCount := ← headerField b 52
      heapStart }
  checkStructure v
  return v

/-- Checks a buffer. -/
def view (b : ByteArray) (fingerprintOf : ByteArray → Fingerprint := Fingerprint.of) :
    Except Failure View :=
  (view? b fingerprintOf).mapError .integrity

/-- A section inside a buffer. -/
structure SectionView where
  id : String
  columnsStart : Nat
  columnCount : Nat
  rowsStart : Nat
  rowCount : Nat
  storedWidth : Nat
deriving DecidableEq, Repr

namespace View

def slot? (v : View) (position : Nat) : Option Item :=
  readSlot? v.buffer v.heapStart position

def name? (v : View) (position : Nat) : Option String :=
  readName? v.buffer v.heapStart position

def valueOf (v : View) (item : Item) : Value :=
  item.toValue v.buffer v.heapStart

def itemAt? (v : View) (item : Item) (index : Nat) : Option Item :=
  item.get? v.buffer v.heapStart index

def contextEntry? (v : View) (index : Nat) : Option (String × Item) :=
  if index < v.contextSize then do
    let position := v.contextStart + index * contextEntrySize
    return (← v.name? position, ← v.slot? (position + slotSize))
  else none

def context (v : View) : List (String × Item) :=
  (List.range v.contextSize).filterMap v.contextEntry?

/-- The value of the first entry with a key. -/
def contextGet? (v : View) (key : String) : Option Item :=
  (v.context.find? fun e => e.1 == key).map Prod.snd

/-- Name and type in the column entry at a place. -/
def columnAt? (v : View) (position : Nat) : Option Column := do
  let name ← v.name? position
  let code ← v.buffer[position + slotSize]?
  return ⟨name, ← ColumnType.ofCode? code⟩

def columnsAt (v : View) (start count : Nat) : List Column :=
  (places start count columnEntrySize).filterMap v.columnAt?

/-- The section whose entry is at a place. -/
def sectionAt? (v : View) (position : Nat) : Option SectionView := do
  let id ← v.name? position
  let columnsStart ← numberAt? v.buffer (position + 16) 4
  let columnCount ← numberAt? v.buffer (position + 20) 4
  let rowsStart ← numberAt? v.buffer (position + 24) 4
  let rowCount ← numberAt? v.buffer (position + 28) 4
  let stored := (v.columnsAt columnsStart columnCount).filter (·.type.isStored)
  return ⟨id, columnsStart, columnCount, rowsStart, rowCount, stored.length⟩

def section? (v : View) (index : Nat) : Option SectionView :=
  if index < v.sectionCount then v.sectionAt? (v.sectionsStart + index * sectionEntrySize)
  else none

def sections (v : View) : List SectionView :=
  (List.range v.sectionCount).filterMap v.section?

def findSection? (v : View) (id : String) : Option SectionView :=
  v.sections.find? (·.id == id)

def column? (v : View) (s : SectionView) (index : Nat) : Option Column :=
  if index < s.columnCount then v.columnAt? (s.columnsStart + index * columnEntrySize) else none

/-- The value in a row under the stored column at an index. -/
def storedCell? (v : View) (s : SectionView) (row index : Nat) : Option Item :=
  if row < s.rowCount ∧ index < s.storedWidth then
    v.slot? (s.rowsStart + (row * s.storedWidth + index) * slotSize)
  else none

/-- The value in a row under the column at an index; an auto-id column holds the number of the row. -/
def cell? (v : View) (s : SectionView) (row index : Nat) : Option Item := do
  let c ← v.column? s index
  if c.type.isStored then
    let before := (List.range index).filterMap (v.column? s)
    v.storedCell? s row (before.filter (·.type.isStored)).length
  else if row < s.rowCount then some (.int (autoIdValue row))
  else none

end View
end DocForms.Buffer
