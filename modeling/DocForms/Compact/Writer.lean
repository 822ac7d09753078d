import DocForms.Document.Inference
import DocForms.Number.Base62
import DocForms.Failure

namespace DocForms

/-- Named references to other files, which a source may carry beside its document. -/
abbrev References := Fields String

namespace Compact
open Text Number

/-- A scalar of the context. Strings that would be read as something else are quoted. -/
def contextScalar (separators : List Char) : Value → List Char
  | .string s => quoteIf (needsQuotes separators s.toList || looksLikeLiteral s.toList) s.toList
  | v => v.text

/-- A scalar in a column. -/
def cellScalar (separators : List Char) (t : ColumnType) : Value → List Char
  | .string s => quoteIf (needsQuotes separators s.toList) s.toList
  | .bool b => if b then ['+'] else ['-']
  | .int n => if t = .base62 then (Base62.encode n).getD (int64Text n) else int64Text n
  | v => v.text

/-- An array is a star and its items between commas. -/
def arrayText (item : Value → List Char) (items : List Value) : List Char :=
  '*' :: join [','] (items.map item)

def contextText : Value → List Char
  | .array items => arrayText (contextScalar [';', ',']) items
  | v => contextScalar [';'] v

def cellText (t : ColumnType) : Value → List Char
  | .array items => arrayText (cellScalar [','] t) items
  | v => cellScalar [] t v

def contextEntry (key : String) (v : Value) : List Char :=
  key.toList ++ '|' :: contextText v

def contextLine (c : Context) : List Char :=
  "#c:".toList ++ join [';'] (c.entries.map fun (key, v) => contextEntry key v)

def referenceLine (key target : String) : List Char :=
  "#:".toList ++ key.toList ++ '|' :: quoteIf (needsQuotes [] target.toList) target.toList

def columnText (c : Column) : List Char :=
  c.name.toList ++ (c.type.suffix?.map fun s => ['%', s]).getD []

def headingLine (s : Section) : List Char :=
  '#' :: s.id.toList ++ '(' :: join ['|'] (s.columns.map columnText) ++ [')']

def rowLine (s : Section) (row : Row) : List Char :=
  join ['|'] ((s.storedColumns.zip row).map fun (c, v) => cellText c.type v)

def sectionLines (s : Section) : List (List Char) :=
  headingLine s :: s.rows.map (rowLine s)

/-- The lines of a document with its references: one for the context, one for each reference, and for each
section a heading with its columns and a line for each row. -/
def documentLines (d : Document) (refs : References) : List (List Char) :=
  (if d.context.isEmpty then [] else [contextLine d.context]) ++
    refs.entries.map (fun (key, target) => referenceLine key target) ++
    d.sections.flatMap sectionLines

/-- Every line ends with a line feed. -/
def textOfLines (ls : List (List Char)) : String :=
  String.ofList (ls.flatMap fun l => l ++ ['\n'])

/-- Reference keys that are no names. -/
def badReferences (refs : References) : List Violation :=
  refs.keys.flatMap nameViolations

/-- Writes a valid document and its references. -/
def write (d : Document) (refs : References) : Except Failure String := do
  d.requireValid
  if badReferences refs = [] then .ok (textOfLines (documentLines d refs))
  else .error (.encoding (badReferences refs))

end Compact
end DocForms
