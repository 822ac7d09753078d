import DocForms.Compact.Writer

namespace DocForms.Compact
open Text Number

/-- The items of an array, without its star. -/
def arrayItems (list : List Char) : Except QuoteFault (List (List Char)) :=
  if list.isEmpty then .ok [] else splitQuoted ',' list

/-- A value of the context. -/
def readContextValue : List Char → Except QuoteFault Value
  | '*' :: list => do
    let items ← arrayItems list
    return .array (← items.mapM inferScalar)
  | field => inferScalar field

def quotingFault {α : Type} (r : Except QuoteFault α) : Except ValueFault α :=
  r.mapError .quoting

/-- A scalar of a column. Only string columns take quoted fields. -/
def readCellScalar (t : ColumnType) (field : List Char) : Except ValueFault Value :=
  let orFault (v? : Option Value) : Except ValueFault Value :=
    if isQuoted field then .error (.notOfType t field)
    else v?.elim (.error (.notOfType t field)) .ok
  match t with
  | .string => quotingFault ((unquote field).map fun s => .string (String.ofList s))
  | .int => orFault ((readInt64? field).map .int)
  | .float => orFault ((readDouble? field).map .float)
  | .bool =>
    orFault (
      if field = ['+'] ∨ field = "true".toList then some (.bool true)
      else if field = ['-'] ∨ field = "false".toList then some (.bool false)
      else none)
  | .base62 => orFault ((Base62.decode field).map .int)
  | .autoId => orFault none

def readCell (t : ColumnType) : List Char → Except ValueFault Value
  | '*' :: list => do
    let items ← quotingFault (arrayItems list)
    return .array (← items.mapM (readCellScalar t))
  | field => readCellScalar t field

/-- A column of a heading: a name and the letter of its type. -/
def readColumn (token : List Char) : Except CompactFault Column := do
  let (name, type) ←
    match splitOnce '%' token with
    | none => pure (token, ColumnType.string)
    | some (name, suffix) =>
      match suffix with
      | [c] =>
        match ColumnType.ofSuffix? c with
        | some type => pure (name, type)
        | none => .error (.unknownSuffix (String.ofList suffix))
      | _ => .error (.unknownSuffix (String.ofList suffix))
  if isNameText name then return ⟨String.ofList name, type⟩
  else .error (.invalidColumnName (String.ofList name))

/-- A section and the line of its heading. -/
structure Placed where
  line : Nat
  table : Section
deriving DecidableEq

/-- What has been read so far. Rows belong to the open section; any line that starts with a number sign
closes it. -/
structure Draft where
  context : Context := ∅
  references : References := ∅
  closed : List Placed := []
  current : Option Placed := none
  contextLine : Option Nat := none

namespace Draft

/-- The sections in the order of their headings. -/
def placed (d : Draft) : List Placed :=
  d.closed ++ d.current.toList

def close (d : Draft) : Draft :=
  { d with closed := d.placed, current := none }

def addContextEntry (line : Nat) (d : Draft) (entry : List Char) : Except Failure Draft := do
  let some (key, raw) := splitOnce '|' entry
    | .error (.parse line (.compact (.contextWithoutValue (String.ofList entry))))
  let name := String.ofList key
  if !isNameText key then .error (.parse line (.invalidContextKey name))
  else if d.context.contains name then .error (.parse line (.duplicateContextKey name))
  else
    let value ← (readContextValue raw).mapError (.parse line <| .quoting ·)
    return { d with context := d.context.insert name value }

/-- Reads what follows `#c:`. -/
def addContext (line : Nat) (d : Draft) (fields : List Char) : Except Failure Draft := do
  let d := { d with contextLine := d.contextLine <|> some line }
  if fields.isEmpty then return d
  else
    let entries ← (splitQuoted ';' fields).mapError (.parse line <| .quoting ·)
    entries.foldlM (addContextEntry line) d

/-- Reads what follows `#:`. -/
def addReference (line : Nat) (d : Draft) (reference : List Char) : Except Failure Draft := do
  let some (key, raw) := splitOnce '|' reference
    | .error (.parse line (.compact .referenceWithoutValue))
  let name := String.ofList key
  if !isNameText key then .error (.parse line (.compact (.invalidReferenceKey name)))
  else if d.references.contains name then
    .error (.parse line (.compact (.duplicateReference name)))
  else
    let target ← (unquote raw).mapError (.parse line <| .quoting ·)
    return { d with references := d.references.insert name (String.ofList target) }

/-- Reads a heading, without its number sign. -/
def openSection (line : Nat) (d : Draft) (heading : List Char) : Except Failure Draft := do
  let fault {α : Type} (f : CompactFault) : Except Failure α := .error (.parse line (.compact f))
  let some (id, rest) := splitOnce '(' heading | fault (.unknownSigil (String.ofList heading))
  let name := String.ofList id
  if !isNameText id then fault (.unknownSigil (String.ofList heading))
  else
    let some schema := dropLast? ')' rest | fault (.unterminatedSection name)
    if schema.isEmpty then fault (.noColumns name)
    else if d.placed.any (·.table.id == name) then .error (.parse line (.duplicateSection name))
    else
      let columns ← ((splitOn '|' schema).mapM readColumn).mapError (.parse line <| .compact ·)
      return { d with current := some ⟨line, ⟨name, columns, []⟩⟩ }

/-- Reads a row of the open section. -/
def addRow (line : Nat) (d : Draft) (text : List Char) : Except Failure Draft := do
  let some p := d.current | .error (.parse line (.compact .rowOutsideSection))
  let fields ← (splitQuoted '|' text).mapError (.parse line <| .quoting ·)
  let columns := p.table.storedColumns
  if fields.length ≠ columns.length then
    .error (.parse line (.compact (.fieldCount fields.length p.table.id columns.length)))
  else
    let row ← (columns.zip fields).mapM fun (c, field) =>
      (readCell c.type field).mapError (.parse line <| .cell c.name ·)
    return { d with current := some { p with table := { p.table with rows := p.table.rows ++ [row] } } }

/-- Reads one line, without its line feed. -/
def addLine (d : Draft) (line : Nat × List Char) : Except Failure Draft :=
  let text := dropEndWhile (· == '\r') line.2
  if isBlankLine text then .ok d
  else
    match text with
    | '#' :: 'c' :: ':' :: fields => d.close.addContext line.1 fields
    | '#' :: ':' :: reference => d.close.addReference line.1 reference
    | '#' :: heading => d.close.openSection line.1 heading
    | _ => d.addRow line.1 text

def document (d : Draft) : Document :=
  ⟨d.context, d.placed.map Placed.table⟩

/-- The line to blame for a violation: the heading of its section, else the first context line. -/
def lineOf (d : Draft) (v : Violation) : Nat :=
  let heading := v.section?.bind fun id =>
    (d.placed.find? (·.table.id == id)).map Placed.line
  (heading <|> d.contextLine).getD 1

def finish (d : Draft) : Except Failure (Document × References) := do
  let document ← d.document.checkRead d.lineOf
  return (document, d.references)

end Draft

/-- Reads a document and its references. The first line that cannot be read ends the reading; a document
that was read whole must still be valid. -/
def readLines (ls : List (List Char)) : Except Failure (Document × References) := do
  (← (numbered ls).foldlM Draft.addLine {}).finish

def readWithReferences (text : String) : Except Failure (Document × References) :=
  readLines (lines text.toList)

def read (text : String) : Except Failure Document :=
  (readWithReferences text).map Prod.fst

end DocForms.Compact
