import DocForms.Document.ColumnType
import DocForms.Document.Fields

namespace DocForms

structure Column where
  name : String
  type : ColumnType
deriving DecidableEq, Repr, Inhabited

/-- The values stored for one row, one per stored column. -/
abbrev Row := List Value

/-- A named table. Rows hold no value for an auto-id column. -/
structure Section where
  id : String
  columns : List Column
  rows : List Row
deriving DecidableEq, Repr, Inhabited

abbrev Context := Fields Value

/-- An ordered context of named values, then flat tables with typed columns. -/
structure Document where
  context : Context
  sections : List Section
deriving DecidableEq, Inhabited

/-- The value of an auto-id column in the row at an index: rows count from one, up to the largest
integer, `2 ^ 63 - 1`. -/
def autoIdValue (index : Nat) : Int64 :=
  if index + 1 < 0x8000000000000000 then Int64.ofNat (index + 1) else Int64.maxValue

namespace Section

def storedColumns (s : Section) : List Column :=
  s.columns.filter (·.type.isStored)

/-- The number of values each row must have. -/
def storedWidth (s : Section) : Nat :=
  s.storedColumns.length

def autoIdIndex? (s : Section) : Option Nat :=
  s.columns.findIdx? (·.type = .autoId)

/-- One value per column: stored values in order, and the row's number under an auto-id column. A row
that is too short has no such form. -/
def spliceRow (index : Nat) : List Column → Row → Option Row
  | [], _ => some []
  | c :: cs, row =>
    if c.type.isStored then
      match row with
      | [] => none
      | v :: vs => (spliceRow index cs vs).map (v :: ·)
    else (spliceRow index cs row).map (.int (autoIdValue index) :: ·)

def expandedRow? (s : Section) (index : Nat) : Option Row :=
  (s.rows[index]?).bind (spliceRow index s.columns)

/-- Equality of what tables mean. -/
def sameAs (s t : Section) : Bool :=
  s.id == t.id && s.columns == t.columns && s.rows.length == t.rows.length &&
    (s.rows.zip t.rows).all fun (a, b) => Value.sameItems a b

end Section

namespace Document

def empty : Document := ⟨∅, []⟩

def findSection? (d : Document) (id : String) : Option Section :=
  d.sections.find? (·.id = id)

/-- Equality of what contexts mean, order included. -/
def sameContext (a b : Context) : Bool :=
  a.keys == b.keys && Value.sameItems a.values b.values

/-- Equality of what documents mean: numbers compare as numbers. -/
def sameAs (d e : Document) : Bool :=
  sameContext d.context e.context && d.sections.length == e.sections.length &&
    (d.sections.zip e.sections).all fun (s, t) => s.sameAs t

end Document
end DocForms
