import DocForms.Layout.Columns
import DocForms.Failure

namespace DocForms.Layout
open Text

/-- A line with its number in the text. -/
abbrev Line := Nat × List Char

/-- Lines without an empty one between them: a heading and what stands under it. -/
structure Paragraph where
  head : Line
  body : List Line
deriving DecidableEq, Repr

/-- Groups of columns that belong to the same rows. -/
abbrev Record := List Paragraph

/-- Lines that are not blank, each with the number of blank lines right before it. -/
def countBlanks (blanks : Nat) : List Line → List (Nat × Line)
  | [] => []
  | l :: ls =>
    if isBlankLine l.2 then countBlanks (blanks + 1) ls
    else (blanks, l) :: countBlanks 0 ls

/-- Puts a line before records whose first line follows after `blanks` blank lines. -/
def consLine (l : Line) (blanks : Nat) : List Record → List Record
  | [] => [[⟨l, []⟩]]
  | [] :: records => [⟨l, []⟩] :: records
  | (p :: ps) :: records =>
    if blanks = 0 then (⟨l, p.head :: p.body⟩ :: ps) :: records
    else if blanks = 1 then (⟨l, []⟩ :: p :: ps) :: records
    else [⟨l, []⟩] :: (p :: ps) :: records

def assemble : List (Nat × Line) → List Record
  | [] => []
  | [(_, l)] => [[⟨l, []⟩]]
  | (_, l) :: (blanks, next) :: rest => consLine l blanks (assemble ((blanks, next) :: rest))

/-- The records of a table. Two empty lines or more separate records, one separates the groups of columns
within a record. -/
def records (lines : List Line) : List Record :=
  assemble (countBlanks 0 lines)

/-- A table that was read: headings, and rows with the number of the line where each starts. -/
structure Table where
  header : List (List Char)
  rows : List (Nat × List (List Char))
deriving DecidableEq, Repr

def readCells (l : Line) : Except Failure (List (List Char)) :=
  (splitOnGaps l.2).mapError (.parse l.1 <| .quoting ·)

/-- A line under a heading has as many cells as the heading. -/
def readUnder (header : List (List Char)) (l : Line) : Except Failure (Nat × List (List Char)) := do
  let cells ← readCells l
  if cells.length = header.length then return (l.1, cells)
  else .error (.parse l.1 (.table (.cellCount cells.length header.length)))

def readGroup (p : Paragraph) : Except Failure Table := do
  let header ← readCells p.head
  let rows ← p.body.mapM (readUnder header)
  return ⟨header, rows⟩

/-- Puts a further group of columns beside those before it. -/
def addGroup (t : Table) (p : Paragraph) : Except Failure Table := do
  let header ← readCells p.head
  if p.body.length = t.rows.length then
    let rows ← p.body.mapM (readUnder header)
    return ⟨t.header ++ header, t.rows.zipWith (fun a b => (a.1, a.2 ++ b.2)) rows⟩
  else .error (.parse p.head.1 (.table (.groupRows p.body.length t.rows.length)))

def readRecord : Record → Except Failure Table
  | [] => .ok ⟨[], []⟩
  | p :: ps => do ps.foldlM addGroup (← readGroup p)

/-- Puts a further record below those before it. -/
def addRecord (t : Table) (r : Record) : Except Failure Table := do
  let below ← readRecord r
  if below.header = t.header then return ⟨t.header, t.rows ++ below.rows⟩
  else .error (.parse ((r.head?.map (·.head.1)).getD 0) (.table .headerMismatch))

/-- Reads a table; lines without content have none. -/
def parse (lines : List Line) : Except Failure Table :=
  match records lines with
  | [] => .ok ⟨[], []⟩
  | r :: rs => do rs.foldlM addRecord (← readRecord r)

end DocForms.Layout
