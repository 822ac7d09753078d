import DocForms.Sheet.Legend
import DocForms.Layout.Columns
import DocForms.Document.Inference
import DocForms.Failure

namespace DocForms.Sheet
open Text

/-- The gap between columns is at least two, so that it can be told from a space inside a cell. -/
def minColumnGap : Nat := 2

def holdsTwoSpaces : List Char → Bool
  | ' ' :: ' ' :: _ => true
  | _ :: cs => holdsTwoSpaces cs
  | [] => false

def needsSheetQuotes (s : List Char) : Bool :=
  needsQuotes [','] s || s.head? == some '[' || holdsTwoSpaces s

/-- A scalar; in the context a string that looks like another value is quoted. -/
def scalarText (typed : Bool) : Value → List Char
  | .string s =>
    quoteIf ((!typed && looksLikeLiteral s.toList) || needsSheetQuotes s.toList) s.toList
  | v => v.text

/-- An array shows its commas; one item alone has a comma after it. -/
def valueText (typed : Bool) : Value → List Char
  | .array [] => ['[', ']']
  | .array [v] => scalarText typed v ++ [',']
  | .array items => join [',', ' '] (items.map (scalarText typed))
  | v => scalarText typed v

def configLines (r : Registry) (c : Context) : List (List Char) :=
  let names := showNames r c.keys
  let width := (names.map (·.text.length)).foldl max 0
  bracketed reservedId.toList :: legendLines (legendEntries none names) ++
    names.zipWith
      (fun n v => Layout.pad .left width n.text.toList ++ " = ".toList ++ valueText false v) c.values

def headingOf (c : Column) (n : ShownName) : Layout.Heading where
  text := if c.type = .string then n.text.toList
    else n.text.toList ++ " (".toList ++ c.type.label.toList ++ [')']
  align := if c.type.isNumeric then .right else .left

def tableRows (s : Section) : List (List (List Char)) :=
  (List.range s.rows.length).filterMap fun i =>
    (s.expandedRow? i).map fun row => row.map (valueText true)

def sectionLines (r : Registry) (o : Layout.Options) (s : Section) : List (List Char) :=
  let heading := showHeading r s.id
  let names := showNames r (s.columns.map Column.name)
  bracketed heading.text.toList :: legendLines (legendEntries (some heading) names) ++
    Layout.render o (s.columns.zipWith headingOf names) (tableRows s)

/-- The blocks of a sheet: the context as assignments, unless it is empty, and each section as an aligned
table. -/
def blocks (r : Registry) (o : Layout.Options) (d : Document) : List (List (List Char)) :=
  let o := { o with columnGap := max o.columnGap minColumnGap }
  (if d.context.isEmpty then [] else [configLines r d.context]) ++
    d.sections.map (sectionLines r o)

/-- The lines of a sheet, with one empty line between blocks. -/
def documentLines (r : Registry) (o : Layout.Options) (d : Document) : List (List Char) :=
  Layout.stack [[]] (blocks r o d)

/-- Writes a valid document. -/
def write (r : Registry) (o : Layout.Options) (d : Document) : Except Failure String := do
  d.requireValid
  return String.ofList ((documentLines r o d).flatMap fun l => l ++ ['\n'])

end DocForms.Sheet
