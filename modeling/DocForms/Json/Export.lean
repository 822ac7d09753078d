import DocForms.Json.Printer
import DocForms.Json.Parser
import DocForms.Failure

namespace DocForms.Json

/-- The rows of a section as objects. -/
def ofSection (s : Section) : Json :=
  let row (i : Nat) : Option Json :=
    (s.expandedRow? i).map fun cells =>
      .object ((s.columns.map Column.name).zip (ofValues cells))
  .array ((List.range s.rows.length).filterMap row)

/-- The first section whose id is also the key of a context field. -/
def clash? (d : Document) : Option String :=
  (d.sections.find? fun s => d.context.contains s.id).map Section.id

/-- The members of the object for a whole document: the context fields, then the sections, each as an
array of objects with a member for every column. -/
def membersOf (d : Document) : List (String × Json) :=
  d.context.entries.map (fun (key, v) => (key, ofValue v)) ++
    d.sections.map fun s => (s.id, ofSection s)

/-- Writes a valid document whose sections have other names than its context fields. -/
def ofDocument (d : Document) : Except Failure Json := do
  d.requireValid
  match clash? d with
  | some key => .error (.encoding [.keyClash key])
  | none => .ok (.object (membersOf d))

/-- The text ends with a line feed. -/
def write (d : Document) : Except Failure String :=
  (ofDocument d).map fun j => String.ofList (prettyText 0 j ++ ['\n'])

end DocForms.Json
