import DocForms.Sheet.Writer
import DocForms.Layout.Records

namespace DocForms.Sheet
open Text Number Layout

/-- What a line of a sheet is. -/
inductive LineKind
  | heading (name : List Char)
  | legend (entries : List (List Char))
  | comment
  | content (text : List Char)
deriving DecidableEq, Repr

/-- The name in a heading line. -/
def headingName? (line : List Char) : Option (List Char) :=
  match line with
  | '[' :: rest => (dropLast? ']' rest).filter isNameText
  | _ => none

/-- Lines that start with a number sign are comments, apart from legends. Line ends do not matter. -/
def LineKind.of (raw : List Char) : LineKind :=
  let line := trimEnd raw
  match headingName? line with
  | some name => .heading name
  | none =>
    let trimmed := trimStart line
    if trimmed.head? = some '#' then
      match dropStart? legendStart trimmed with
      | some list => .legend (readLegend list)
      | none => .comment
    else .content line

/-- A heading with what stands under it, up to the next heading. -/
structure Block where
  line : Nat
  name : List Char
  legend : List (List Char)
  body : List Line
deriving DecidableEq, Repr

/-- The blocks of the rest of a sheet, and what stands before the first of them. -/
structure Cut where
  legend : List (List Char) := []
  body : List Line := []
  blocks : List Block := []
deriving DecidableEq, Repr

def Cut.addLine (line : Nat × LineKind) (c : Cut) : Cut :=
  match line.2 with
  | .heading name => { blocks := ⟨line.1, name, c.legend, c.body⟩ :: c.blocks }
  | .legend entries => { c with legend := entries ++ c.legend }
  | .comment => c
  | .content text => { c with body := (line.1, text) :: c.body }

def cut (ls : List Line) : Cut :=
  (ls.map fun l => (l.1, LineKind.of l.2)).foldr Cut.addLine {}

/-- The blocks of a sheet. Nothing but empty lines and comments may stand before the first. -/
def blocksOf (ls : List Line) : Except Failure (List Block) :=
  let c := cut ls
  match c.body.find? fun l => !isBlankLine l.2 with
  | some l => .error (.parse l.1 (.sheet .contentOutsideBlock))
  | none => .ok c.blocks

/-- Reads a scalar of the given type; without a type the text decides. -/
def readScalar (type? : Option ColumnType) (field : List Char) : Except ValueFault Value :=
  match type? with
  | none => (inferScalar field).mapError .quoting
  | some t =>
    let orFault (v? : Option Value) : Except ValueFault Value :=
      if isQuoted field then .error (.notOfType t field)
      else v?.elim (.error (.notOfType t field)) .ok
    match t with
    | .string => ((unquote field).map fun s => .string (String.ofList s)).mapError .quoting
    | .int | .base62 => orFault ((readInt64? field).map .int)
    | .float => orFault ((readDouble? field).map .float)
    | .bool =>
      orFault (
        if field = "true".toList then some (.bool true)
        else if field = "false".toList then some (.bool false)
        else none)
    | .autoId => orFault none

/-- The items of a list that ends with a comma or not. -/
def dropEmptyLast (items : List (List Char)) : List (List Char) :=
  if items.getLast? = some [] then items.dropLast else items

def readItem (type? : Option ColumnType) (item : List Char) : Except ValueFault Value :=
  if item.isEmpty then .error .emptyItem else readScalar type? item

/-- Reads a value: a comma outside quotation marks makes an array. -/
def readValue (type? : Option ColumnType) (raw : List Char) : Except ValueFault Value := do
  if raw = ['[', ']'] then return .array []
  else
    match ← (splitQuoted ',' raw).mapError .quoting with
    | [field] => readScalar type? (trim field)
    | parts => return .array (← (dropEmptyLast (parts.map trim)).mapM (readItem type?))

/-- Reads one assignment of the context; empty lines assign nothing. -/
def addAssignment (r : Registry) (legend : List (List Char)) (c : Context) (l : Line) :
    Except Failure Context := do
  if isBlankLine l.2 then return c
  else
    let some (left, right) := splitOnce '=' l.2 | .error (.parse l.1 (.sheet .noEquals))
    let key := nameMeant r legend (trim left)
    if !isName key then .error (.parse l.1 (.invalidContextKey key))
    else if c.contains key then .error (.parse l.1 (.duplicateContextKey key))
    else
      let value ← (readValue none (trim right)).mapError (.parse l.1 <| .value ·)
      return c.insert key value

/-- What stands before the last occurrence of ` (` in a heading, and the label after it. -/
def splitLabel : List Char → Option (List Char × List Char)
  | [] => none
  | c :: cs =>
    match splitLabel cs with
    | some (before, label) => some (c :: before, label)
    | none =>
      match c, cs with
      | ' ', '(' :: label => some ([], label)
      | _, _ => none

/-- Reads the heading of a column: a name, and its type in parentheses unless it is a string. -/
def readHeading (r : Registry) (legend : List (List Char)) (token : List Char) :
    Except SheetFault Column :=
  match (dropLast? ')' token).bind splitLabel with
  | none => .ok ⟨nameMeant r legend token, .string⟩
  | some (name, label) =>
    match ColumnType.ofLabel? (String.ofList label) with
    | none => .error (.unknownColumnType (String.ofList label))
    | some t => .ok ⟨nameMeant r legend name, t⟩

/-- Reads the cells of a row; those under an auto-id column are not looked at. -/
def readRow (columns : List Column) (row : Nat × List (List Char)) : Except Failure Row :=
  ((columns.zip row.2).filter fun (c, _) => c.type.isStored).mapM fun (c, cell) =>
    (readValue (some c.type) cell).mapError (.parse row.1 <| .cell c.name ·)

def readSection (r : Registry) (b : Block) (id : String) : Except Failure Section := do
  let table ← Layout.parse b.body
  let headerLine := ((b.body.find? fun l => !isBlankLine l.2).map Prod.fst).getD b.line
  if table.header.isEmpty then .error (.parse b.line (.sheet (.noHeader id)))
  else
    let columns ← (table.header.mapM (readHeading r b.legend)).mapError (.parse headerLine <| .sheet ·)
    let rows ← table.rows.mapM (readRow columns)
    return ⟨id, columns, rows⟩

/-- What has been read so far, with the lines of the headings. -/
structure Draft where
  context : Context := ∅
  configLine : Option Nat := none
  placed : List (Nat × Section) := []

namespace Draft

def addConfig (r : Registry) (d : Draft) (b : Block) : Except Failure Draft := do
  if d.configLine.isSome then .error (.parse b.line (.sheet .duplicateConfig))
  else
    let context ← b.body.foldlM (addAssignment r b.legend) d.context
    return { d with context, configLine := some b.line }

def addSection (r : Registry) (d : Draft) (b : Block) : Except Failure Draft := do
  let id := headingMeant r b.legend b.name
  if d.placed.any (·.2.id == id) then .error (.parse b.line (.duplicateSection id))
  else return { d with placed := d.placed ++ [(b.line, ← readSection r b id)] }

def addBlock (r : Registry) (d : Draft) (b : Block) : Except Failure Draft :=
  if b.name = reservedId.toList then d.addConfig r b else d.addSection r b

/-- The line to blame for a violation: the heading of its section, else that of the context. -/
def lineOf (d : Draft) (v : Violation) : Nat :=
  let heading := v.section?.bind fun id => (d.placed.find? (·.2.id == id)).map Prod.fst
  (heading <|> d.configLine).getD 1

def finish (d : Draft) : Except Failure Document :=
  Document.checkRead d.lineOf ⟨d.context, d.placed.map Prod.snd⟩

end Draft

def readLines (r : Registry) (ls : List (List Char)) : Except Failure Document := do
  let blocks ← blocksOf (numbered ls)
  (← blocks.foldlM (Draft.addBlock r) {}).finish

/-- Reads a document from its sheet. -/
def read (r : Registry) (text : String) : Except Failure Document :=
  readLines r (lines text.toList)

end DocForms.Sheet
