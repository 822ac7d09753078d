import DocForms.Document.Name
import DocForms.Document.Violation

namespace DocForms

/-- The longest string, in bytes, and the longest array that any written form takes. -/
def lengthLimit : Nat := 65535

def nameViolations (name : String) : List Violation :=
  if isName name then [] else [.invalidName name]

namespace Value

/-- Rules that hold for a scalar wherever it stands. -/
def sizeViolations (location : String) : Value → List Violation
  | .string s => if lengthLimit < s.utf8ByteSize then [.stringTooLong location s.utf8ByteSize] else []
  | .float x => if x.isFinite then [] else [.nonFiniteFloat location]
  | _ => []

/-- Rules that hold for a scalar in a column of the given type. -/
def typeViolations (location : String) (t : ColumnType) (v : Value) : List Violation :=
  match t, v with
  | .base62, .int n => if n < 0 then [.negativeBase62 location n] else []
  | _, _ => if t.accepts v then [] else [.typeMismatch location t v.typeName]

/-- Context fields have no type. -/
def scalarViolations (type? : Option ColumnType) (location : String) (v : Value) : List Violation :=
  v.sizeViolations location ++ (type?.map fun t => v.typeViolations location t).getD []

def violations (type? : Option ColumnType) (location : String) : Value → List Violation
  | .array items =>
    (if lengthLimit < items.length then [.arrayTooLong location items.length] else []) ++
      items.flatMap fun item =>
        if item.isArray then [.nestedArray location] else item.scalarViolations type? location
  | v => v.scalarViolations type? location

end Value

namespace Section

def columnViolations (id : String) : (seen : List String) → List Column → List Violation
  | _, [] => []
  | seen, c :: cs =>
    nameViolations c.name ++ (if seen.contains c.name then [.duplicateColumn id c.name] else []) ++
      columnViolations id (c.name :: seen) cs

def cellLocation (id : String) (row : Nat) (column : String) : String :=
  s!"{id}[{row}].{column}"

/-- A row of the wrong length is not checked further. -/
def rowViolations (s : Section) (index : Nat) (row : Row) : List Violation :=
  if row.length ≠ s.storedWidth then [.rowArity s.id index s.storedWidth row.length]
  else (s.storedColumns.zip row).flatMap fun (c, v) =>
    v.violations (some c.type) (cellLocation s.id index c.name)

def violations (s : Section) : List Violation :=
  nameViolations s.id ++
    (if s.id = reservedId then [.reservedSectionId s.id] else []) ++
    columnViolations s.id [] s.columns ++
    (if s.storedWidth = 0 then [.emptySchema s.id] else []) ++
    (if 1 < s.columns.length - s.storedWidth then [.multipleAutoId s.id] else []) ++
    s.rows.zipIdx.flatMap fun (row, index) => s.rowViolations index row

end Section

namespace Document

def contextViolations (c : Context) : List Violation :=
  c.entries.flatMap fun (key, value) =>
    nameViolations key ++ value.violations none ("context." ++ key)

def sectionViolations : (seen : List String) → List Section → List Violation
  | _, [] => []
  | seen, s :: ss =>
    (if seen.contains s.id then [.duplicateSectionId s.id] else []) ++ s.violations ++
      sectionViolations (s.id :: seen) ss

def violations (d : Document) : List Violation :=
  contextViolations d.context ++ sectionViolations [] d.sections

def isValid (d : Document) : Bool :=
  d.violations.isEmpty

end Document
end DocForms
