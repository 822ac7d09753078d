import DocForms.Json.Outline
import DocForms.Document.Violation

namespace DocForms

namespace Json

/-- The members with the given names; each occurs exactly once. -/
def fields? (names : List String) : Json → Option (List Json)
  | .object members =>
    names.mapM fun name =>
      match members.filter (·.1 == name) with
      | [(_, j)] => some j
      | _ => none
  | _ => none

def string? : Json → Option String
  | .string s => some s
  | _ => none

def array? : Json → Option (List Json)
  | .array items => some items
  | _ => none

/-- A count is an integer that is not negative. -/
def nat? : Json → Option Nat
  | .number (.int n) => if 0 ≤ n then some n.toNat else none
  | _ => none

def int64? : Json → Option Int64
  | .number n => n.asInt64?
  | _ => none

def ofNat (n : Nat) : Json :=
  .number (.int n)

/-- Numbers that fit 64 bits with a sign are integers, all others floating-point numbers. -/
def numberValue (n : JsonNumber) : Value :=
  match n.asInt64? with
  | some i => .int i
  | none => .float n.asDouble

mutual
/-- Reads a value; null and objects are none. -/
def toValue? : Json → Option Value
  | .bool b => some (.bool b)
  | .number n => some (numberValue n)
  | .string s => some (.string s)
  | .array items => (toValues? items).map .array
  | .null | .object _ => none

def toValues? : List Json → Option (List Value)
  | [] => some []
  | j :: js => do return (← toValue? j) :: (← toValues? js)
end

namespace Outline

def string? (o : Outline) : Option String := do
  (← o.toJson?).string?

def toValue? (o : Outline) : Option Value := do
  Json.toValue? (← o.toJson?)

end Outline
end Json

open Json (Outline)

namespace ColumnType

def jsonName : ColumnType → String
  | .autoId => "auto_id"
  | t => t.label

/-- A type is its name, or an object with null under its name. -/
def ofJson? : Json → Option ColumnType
  | .string s => all.find? fun t => t.jsonName = s
  | .object [(s, .null)] => all.find? fun t => t.jsonName = s
  | _ => none

end ColumnType

namespace Column

def toJson (c : Column) : Json :=
  .object [("name", .string c.name), ("type_hint", .string c.type.jsonName)]

def ofOutline? (o : Outline) : Option Column := do
  match ← o.fields? ["name", "type_hint"] with
  | [name, type] => return ⟨← name.string?, ← ColumnType.ofJson? (← type.toJson?)⟩
  | _ => none

end Column

namespace Section

def toJson (s : Section) : Json :=
  .object [("id", .string s.id), ("columns", .array (s.columns.map Column.toJson)),
    ("rows", .array (s.rows.map fun row => .array (Json.ofValues row)))]

def ofOutline? (o : Outline) : Option Section := do
  match ← o.fields? ["id", "columns", "rows"] with
  | [id, columns, rows] =>
    return ⟨← id.string?, ← (← columns.items?).mapM Column.ofOutline?,
      ← (← rows.items?).mapM fun row => do (← row.items?).mapM Outline.toValue?⟩
  | _ => none

end Section

namespace Document

def contextToJson (c : Context) : Json :=
  .object (c.entries.map fun (key, v) => (key, Json.ofValue v))

def toJson (d : Document) : Json :=
  .object [("context", contextToJson d.context), ("sections", .array (d.sections.map Section.toJson))]

/-- Of a repeated key the first place and the last value count. -/
def contextOfJson? : Json → Option Context
  | .object members =>
    (members.mapM fun (m : String × Json) => m.2.toValue?.map (m.1, ·)).map Fields.ofList
  | _ => none

def ofOutline? (o : Outline) : Option Document := do
  match ← o.fields? ["context", "sections"] with
  | [context, sections] =>
    return ⟨← contextOfJson? (← context.toJson?), ← (← sections.items?).mapM Section.ofOutline?⟩
  | _ => none

/-- Reads the structural form of a document, from the outline of the text, so that members of other names
do not matter. -/
def ofStructure? (text : String) : Option Document := do
  ofOutline? (← Outline.ofText? text)

end Document

namespace Violation

/-- The name of the rule and the parts of the violation. -/
def parts : Violation → String × List (String × Json)
  | .invalidName name => ("InvalidName", [("name", .string name)])
  | .reservedSectionId id => ("ReservedSectionId", [("id", .string id)])
  | .duplicateSectionId id => ("DuplicateSectionId", [("id", .string id)])
  | .duplicateColumn sectionId column =>
    ("DuplicateColumn", [("section", .string sectionId), ("column", .string column)])
  | .emptySchema sectionId => ("EmptySchema", [("section", .string sectionId)])
  | .multipleAutoId sectionId => ("MultipleAutoId", [("section", .string sectionId)])
  | .rowArity sectionId row expected found =>
    ("RowArity", [("section", .string sectionId), ("row", .ofNat row),
      ("expected", .ofNat expected), ("found", .ofNat found)])
  | .typeMismatch location expected found =>
    ("TypeMismatch", [("location", .string location), ("expected", .string expected.jsonName),
      ("found", .string found)])
  | .negativeBase62 location value =>
    ("NegativeBase62", [("location", .string location), ("value", .number (.int value.toInt))])
  | .nonFiniteFloat location => ("NonFiniteFloat", [("location", .string location)])
  | .stringTooLong location size =>
    ("StringTooLong", [("location", .string location), ("len", .ofNat size)])
  | .arrayTooLong location size =>
    ("ArrayTooLong", [("location", .string location), ("len", .ofNat size)])
  | .nestedArray location => ("NestedArray", [("location", .string location)])
  | .tooLarge size => ("TooLarge", [("len", .ofNat size)])
  | .keyClash key => ("KeyClash", [("key", .string key)])

/-- An object with the parts under the name of the rule. -/
def toJson (v : Violation) : Json :=
  .object [(v.parts.1, .object v.parts.2)]

/-- Reads the parts of a violation of the rule with the given name. -/
def ofParts? (rule : String) (j : Json) : Option Violation := do
  let string (name : String) : Option String := do
    match ← j.fields? [name] with
    | [s] => s.string?
    | _ => none
  let stringAnd {α : Type} (first second : String) (read : Json → Option α) : Option (String × α) := do
    match ← j.fields? [first, second] with
    | [s, x] => return (← s.string?, ← read x)
    | _ => none
  match rule with
  | "InvalidName" => (string "name").map .invalidName
  | "ReservedSectionId" => (string "id").map .reservedSectionId
  | "DuplicateSectionId" => (string "id").map .duplicateSectionId
  | "DuplicateColumn" =>
    (stringAnd "section" "column" Json.string?).map fun (id, column) => .duplicateColumn id column
  | "EmptySchema" => (string "section").map .emptySchema
  | "MultipleAutoId" => (string "section").map .multipleAutoId
  | "RowArity" =>
    match ← j.fields? ["section", "row", "expected", "found"] with
    | [id, row, expected, found] =>
      return .rowArity (← id.string?) (← row.nat?) (← expected.nat?) (← found.nat?)
    | _ => none
  | "TypeMismatch" =>
    match ← j.fields? ["location", "expected", "found"] with
    | [location, expected, found] =>
      return .typeMismatch (← location.string?) (← ColumnType.ofJson? expected) (← found.string?)
    | _ => none
  | "NegativeBase62" =>
    (stringAnd "location" "value" Json.int64?).map fun (place, n) => .negativeBase62 place n
  | "NonFiniteFloat" => (string "location").map .nonFiniteFloat
  | "StringTooLong" =>
    (stringAnd "location" "len" Json.nat?).map fun (place, n) => .stringTooLong place n
  | "ArrayTooLong" =>
    (stringAnd "location" "len" Json.nat?).map fun (place, n) => .arrayTooLong place n
  | "NestedArray" => (string "location").map .nestedArray
  | "TooLarge" => do
    match ← j.fields? ["len"] with
    | [n] => n.nat?.map .tooLarge
    | _ => none
  | "KeyClash" => (string "key").map .keyClash
  | _ => none

def ofJson? : Json → Option Violation
  | .object [(rule, j)] => ofParts? rule j
  | _ => none

end Violation
end DocForms
