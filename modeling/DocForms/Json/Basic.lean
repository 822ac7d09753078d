import DocForms.Document.Basic

namespace DocForms
open Number

/-- A number of JSON text: one written without point and exponent that fits 64 bits is an integer, with
or without sign; all others are floating-point numbers. -/
inductive JsonNumber
  | int (n : Int)
  | float (x : Double)
deriving DecidableEq, Repr, Inhabited

namespace JsonNumber

/-- The number as a signed integer of 64 bits. -/
def asInt64? : JsonNumber → Option Int64
  | .int n => int64? n
  | .float _ => none

def asDouble : JsonNumber → Double
  | .int n => .ofInt n
  | .float x => x

end JsonNumber

/-- JSON values. Objects keep their members in the order of the text, repeated keys included. -/
inductive Json
  | null
  | bool (b : Bool)
  | number (n : JsonNumber)
  | string (s : String)
  | array (items : List Json)
  | object (members : List (String × Json))
deriving Repr, Inhabited

namespace Json

def isObject : Json → Bool
  | .object _ => true
  | _ => false

/-- Sets a key: a new one goes to the end, one already there keeps its place. -/
def setMember (members : List (String × Json)) (key : String) (value : Json) :
    List (String × Json) :=
  if members.any (·.1 == key) then members.map fun m => if m.1 == key then (key, value) else m
  else members ++ [(key, value)]

/-- Members without repeated keys: the first place and the last value count. -/
def distinctMembers (members : List (String × Json)) : List (String × Json) :=
  members.foldl (fun ms m => setMember ms m.1 m.2) []

mutual
/-- The value with no key repeated in any object. -/
def distinct : Json → Json
  | .array items => .array (distinctItems items)
  | .object members => .object (distinctMembers (distinctValues members))
  | j => j

def distinctItems : List Json → List Json
  | [] => []
  | j :: js => distinct j :: distinctItems js

def distinctValues : List (String × Json) → List (String × Json)
  | [] => []
  | (key, j) :: ms => (key, distinct j) :: distinctValues ms
end

/-- The value of a document as JSON; a number that is not finite has no form but null. -/
def ofDouble (x : Double) : Json :=
  if x.isFinite then .number (.float x) else .null

mutual
def ofValue : Value → Json
  | .bool b => .bool b
  | .int n => .number (.int n.toInt)
  | .float x => ofDouble x
  | .string s => .string s
  | .array items => .array (ofValues items)

def ofValues : List Value → List Json
  | [] => []
  | v :: vs => ofValue v :: ofValues vs
end

end Json
end DocForms
