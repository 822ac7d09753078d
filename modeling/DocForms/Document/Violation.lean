import DocForms.Document.Basic
import DocForms.Text.Fields

namespace DocForms
open Text

/-- The rules of documents, each as the way it can be broken. -/
inductive Violation
  | invalidName (name : String)
  | reservedSectionId (id : String)
  | duplicateSectionId (id : String)
  | duplicateColumn (sectionId column : String)
  | emptySchema (sectionId : String)
  | multipleAutoId (sectionId : String)
  | rowArity (sectionId : String) (row expected found : Nat)
  | typeMismatch (location : String) (expected : ColumnType) (found : String)
  | negativeBase62 (location : String) (value : Int64)
  | nonFiniteFloat (location : String)
  | stringTooLong (location : String) (size : Nat)
  | arrayTooLong (location : String) (size : Nat)
  | nestedArray (location : String)
  | tooLarge (size : Nat)
  | keyClash (key : String)
deriving DecidableEq, Repr

namespace Violation

def message : Violation → String
  | .invalidName name => s!"invalid name {shown name}"
  | .reservedSectionId id => s!"section id {shown id} is reserved"
  | .duplicateSectionId id => s!"duplicate section id {shown id}"
  | .duplicateColumn sectionId column =>
    s!"section {shown sectionId} declares column {shown column} twice"
  | .emptySchema sectionId => s!"section {shown sectionId} has no stored columns"
  | .multipleAutoId sectionId => s!"section {shown sectionId} has more than one auto-id column"
  | .rowArity sectionId row expected found =>
    s!"section {shown sectionId} row {row} has {found} fields, schema expects {expected}"
  | .typeMismatch location expected found =>
    s!"{location}: expected {expected.title}, found {found}"
  | .negativeBase62 location value =>
    s!"{location}: negative value {value.toInt} in base62 column"
  | .nonFiniteFloat location => s!"{location}: float is not finite"
  | .stringTooLong location size => s!"{location}: string of {size} bytes exceeds 65535"
  | .arrayTooLong location size => s!"{location}: array of {size} elements exceeds 65535"
  | .nestedArray location => s!"{location}: arrays cannot be nested"
  | .tooLarge size => s!"encoded form of {size} bytes does not fit 32-bit offsets"
  | .keyClash key => s!"{shown key} names both a context field and a section"

/-- The section part of a location such as `ports[0].number`. -/
def locationSection? (location : String) : Option String :=
  (splitOnce '[' location.toList).map fun (before, _) => String.ofList before

/-- The section that the violation belongs to, if any. -/
def section? : Violation → Option String
  | .reservedSectionId id | .duplicateSectionId id => some id
  | .duplicateColumn sectionId _ | .emptySchema sectionId | .multipleAutoId sectionId
  | .rowArity sectionId _ _ _ => some sectionId
  | .typeMismatch location _ _ | .negativeBase62 location _ | .nonFiniteFloat location
  | .stringTooLong location _ | .arrayTooLong location _ | .nestedArray location =>
    locationSection? location
  | .invalidName _ | .tooLarge _ | .keyClash _ => none

end Violation
end DocForms
