import DocForms.Fault
import DocForms.Document.Validation
import DocForms.Fingerprint

namespace DocForms

/-- What an operation on documents or on cached files gives instead of a result. -/
inductive Failure
  /-- A text could not be read; lines count from one. -/
  | parse (line : Nat) (fault : ReadFault)
  /-- A document breaks rules and has no written form. -/
  | encoding (violations : List Violation)
  /-- A buffer is not one that the writer of buffers makes. -/
  | integrity (fault : BufferFault)
  /-- A source holds something other than what was last recorded for it. -/
  | conflict (path : String) (expected : Fingerprint) (found : Option Fingerprint)
  /-- A source was written but the files listed were not. -/
  | staleCache (path : String) (stale : List String)
  /-- A source path leads out of the root. -/
  | outsideRoot (path : String)
  /-- A file could not be read or written. -/
  | io (path : String)
deriving DecidableEq, Repr

namespace Failure

def message : Failure → String
  | .parse line fault => s!"Parse error at line {line}: {fault.message}"
  | .encoding violations =>
    "Encoding error: " ++ "; ".intercalate (violations.map Violation.message)
  | .integrity fault => s!"Integrity error: {fault.message}"
  | .conflict path expected found =>
    let content := (found.map Fingerprint.text).getD "no file"
    s!"Conflict at {path}: expected fingerprint {expected.text}, found {content}"
  | .staleCache path stale => s!"Stale cache for {path}: {stale.length} artifact(s) not written"
  | .outsideRoot path => s!"Path {path} is outside the project root"
  | .io path => s!"IO error at {path}"

/-- Whether trying again may help. -/
def isTransient : Failure → Bool
  | .io _ | .staleCache _ _ => true
  | _ => false

/-- The line of a text that could not be read. -/
def line? : Failure → Option Nat
  | .parse line _ => some line
  | _ => none

end Failure

namespace Document

/-- A document that is about to be written must be valid. -/
def requireValid (d : Document) : Except Failure Unit :=
  if d.isValid then .ok () else .error (.encoding d.violations)

/-- A document that was just read must be valid; its first violation is reported where `lineOf` says
that it stands. -/
def checkRead (lineOf : Violation → Nat) (d : Document) : Except Failure Document :=
  match d.violations with
  | [] => .ok d
  | v :: _ => .error (.parse (lineOf v) (.violation v))

end Document
end DocForms
