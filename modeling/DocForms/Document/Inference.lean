import DocForms.Fault

namespace DocForms
open Text Number

/-- Whether a bare text means something other than a string, so that it must be quoted to mean one. -/
def looksLikeLiteral (s : List Char) : Bool :=
  s == "true".toList || s == "false".toList || (readInt64? s).isSome || (readDouble? s).isSome

/-- The value of a bare text: a truth value, then an integer, then a finite number, else a string. -/
def inferBare (s : List Char) : Value :=
  if s = "true".toList then .bool true
  else if s = "false".toList then .bool false
  else match readInt64? s with
    | some n => .int n
    | none =>
      match (readDouble? s).filter (·.isFinite) with
      | some x => .float x
      | none => .string (String.ofList s)

/-- Reads a field of unknown type; a quoted field is a string. -/
def inferScalar (field : List Char) : Except QuoteFault Value :=
  if isQuoted field then (unquote field).map fun s => .string (String.ofList s)
  else .ok (inferBare field)

end DocForms
