import DocForms.Json.Export
import DocForms.Json.Structure

namespace DocForms.Json
open Text

def shapeFault {α : Type} (location : String) (fault : ShapeFault) : Except Failure α :=
  .error (.parse 1 (.shape location fault))

/-- Reads a scalar of the context or of a column whose type does not matter. -/
def readScalar (location : String) : Json → Except Failure Value
  | .bool b => .ok (.bool b)
  | .number n => .ok (numberValue n)
  | .string s => .ok (.string s)
  | .null => shapeFault location .null
  | .array _ | .object _ => shapeFault location .notScalar

/-- Reads a scalar of a column. Numbers and truth values in a string column become their text. -/
def readTyped (t : ColumnType) (location : String) (j : Json) : Except Failure Value :=
  match t, j with
  | .string, .number _ | .string, .bool _ => .ok (.string j.compact)
  | .float, .number n => .ok (.float n.asDouble)
  | _, _ => readScalar location j

/-- Reads a scalar, or the items of an array each under its own location. -/
def readFlat (scalar : String → Json → Except Failure Value) (location : String) :
    Json → Except Failure Value
  | .array items => do
    return .array (← items.zipIdx.mapM fun (j, i) => scalar s!"{location}[{i}]" j)
  | j => scalar location j

/-- The scalars of a column: its values, and the items of those that are arrays. -/
def columnScalars (column : List Json) : List Json :=
  column.flatMap fun
    | .array items => items
    | j => [j]

def isBool : Json → Bool
  | .bool _ => true
  | _ => false

def isInt64 : Json → Bool
  | .number n => n.asInt64?.isSome
  | _ => false

def isNumber : Json → Bool
  | .number _ => true
  | _ => false

/-- The narrowest type that all scalars of a column have; strings take the rest. -/
def columnType (column : List Json) : ColumnType :=
  let scalars := columnScalars column
  if scalars.isEmpty then .string
  else if scalars.all isBool then .bool
  else if scalars.all isInt64 then .int
  else if scalars.all isNumber then .float
  else .string

abbrev Members := List (String × Json)

def rowLocation (id : String) (index : Nat) : String :=
  s!"{id}[{index}]"

/-- Reads the column with the given name from every row. -/
def readColumn (id : String) (rows : List Members) (name : String) :
    Except Failure (Column × List Value) := do
  let raw ← rows.zipIdx.mapM fun (row, i) =>
    match row.lookup name with
    | some j => Except.ok j
    | none => shapeFault (rowLocation id i) (.missingField name)
  let t := columnType raw
  let cells ← raw.zipIdx.mapM fun (j, i) =>
    readFlat (readTyped t) s!"{rowLocation id i}.{name}" j
  return (⟨name, t⟩, cells)

/-- The rows of a table given by its columns. -/
def rowsOfColumns (count : Nat) (columns : List (List Value)) : List Row :=
  (List.range count).map fun i => columns.filterMap (·[i]?)

/-- Reads a section from the objects of an array. Its columns are the fields of the first object. -/
def readSection (id : String) (rows : List Members) : Except Failure Section := do
  let names := (rows.headD []).map Prod.fst
  match rows.zipIdx.find? fun (row, _) => row.length != names.length with
  | some (_, i) => shapeFault (rowLocation id i) .fieldsDiffer
  | none =>
    let columns ← names.mapM (readColumn id rows)
    return ⟨id, columns.map Prod.fst, rowsOfColumns rows.length (columns.map Prod.snd)⟩

def members? : Json → Option Members
  | .object members => some members
  | _ => none

/-- The rows of an array that is a section: objects only, and one at least. -/
def sectionRows? (items : List Json) : Option (List Members) :=
  if items.isEmpty then none else items.mapM members?

/-- What has been read so far, sections in order. -/
structure Draft where
  context : Context := ∅
  sections : List Section := []

/-- A leaf of the object: a section or a context field. -/
def addLeaf (d : Draft) (name : String) (j : Json) : Except Failure Draft := do
  let field : Except Failure Draft := do
    let v ← readFlat readScalar name j
    if d.context.contains name then shapeFault name .repeatedKey
    else return { d with context := d.context.insert name v }
  match j with
  | .array items =>
    match sectionRows? items with
    | some rows => return { d with sections := d.sections ++ [← readSection name rows] }
    | none => field
  | _ => field

/-- Names of nested members are joined with points. -/
def memberName (path key : String) : String :=
  if path.isEmpty then key else s!"{path}.{key}"

mutual
def addMember (path : String) (d : Draft) (key : String) : Json → Except Failure Draft
  | .object members => addMembers (memberName path key) d members
  | j => addLeaf d (memberName path key) j

def addMembers (path : String) (d : Draft) : Members → Except Failure Draft
  | [] => .ok d
  | (key, j) :: ms => do addMembers path (← addMember path d key j) ms
end

/-- Reads a document from the members of an object. -/
def toDocument (j : Json) : Except Failure Document := do
  match j.distinct with
  | .object members =>
    let d ← addMembers "" {} members
    Document.checkRead (fun _ => 1) ⟨d.context, d.sections⟩
  | _ => .error (.parse 1 .rootNotObject)

def readDocument (text : String) : Except Failure Document := do
  toDocument (← (read text).mapError (.parse · .notJson))

end DocForms.Json
