import DocForms.Number.DoubleText

namespace DocForms
open Number

/-- A scalar, or an array of values. A valid document nests arrays no deeper than one level; the type
admits more, so that a check can refuse them. -/
inductive Value
  | bool (b : Bool)
  | int (n : Int64)
  | float (x : Double)
  | string (s : String)
  | array (items : List Value)
deriving Repr, Inhabited

namespace Value

mutual
/-- Identity of values: floating-point numbers are the same if their bits are. -/
def decEq : (v w : Value) → Decidable (v = w)
  | .bool a, .bool b => if h : a = b then isTrue (h ▸ rfl) else isFalse (by simpa using h)
  | .int a, .int b => if h : a = b then isTrue (h ▸ rfl) else isFalse (by simpa using h)
  | .float a, .float b => if h : a = b then isTrue (h ▸ rfl) else isFalse (by simpa using h)
  | .string a, .string b => if h : a = b then isTrue (h ▸ rfl) else isFalse (by simpa using h)
  | .array a, .array b =>
    match decEqList a b with
    | isTrue h => isTrue (h ▸ rfl)
    | isFalse h => isFalse (by simpa using h)
  | .bool _, .int _ | .bool _, .float _ | .bool _, .string _ | .bool _, .array _
  | .int _, .bool _ | .int _, .float _ | .int _, .string _ | .int _, .array _
  | .float _, .bool _ | .float _, .int _ | .float _, .string _ | .float _, .array _
  | .string _, .bool _ | .string _, .int _ | .string _, .float _ | .string _, .array _
  | .array _, .bool _ | .array _, .int _ | .array _, .float _ | .array _, .string _ =>
    isFalse (by simp)

def decEqList : (vs ws : List Value) → Decidable (vs = ws)
  | [], [] => isTrue rfl
  | [], _ :: _ | _ :: _, [] => isFalse (by simp)
  | v :: vs, w :: ws =>
    match decEq v w, decEqList vs ws with
    | isTrue h, isTrue hs => isTrue (h ▸ hs ▸ rfl)
    | isFalse h, _ => isFalse (by simp [h])
    | _, isFalse h => isFalse (by simp [h])
end

instance : DecidableEq Value := decEq

mutual
/-- Equality of what values mean: floating-point numbers compare as numbers. -/
def sameAs : Value → Value → Bool
  | .bool a, .bool b => a == b
  | .int a, .int b => a == b
  | .float a, .float b => a.numEq b
  | .string a, .string b => a == b
  | .array a, .array b => sameItems a b
  | _, _ => false

def sameItems : List Value → List Value → Bool
  | [], [] => true
  | v :: vs, w :: ws => sameAs v w && sameItems vs ws
  | _, _ => false
end

def isArray : Value → Bool
  | .array _ => true
  | _ => false

def asBool? : Value → Option Bool
  | .bool b => some b
  | _ => none

def asInt? : Value → Option Int64
  | .int n => some n
  | _ => none

def asFloat? : Value → Option Double
  | .float x => some x
  | _ => none

def asString? : Value → Option String
  | .string s => some s
  | _ => none

def asArray? : Value → Option (List Value)
  | .array items => some items
  | _ => none

/-- The kind of value, as messages name it. -/
def typeName : Value → String
  | .bool _ => "bool"
  | .int _ => "int"
  | .float _ => "float"
  | .string _ => "string"
  | .array _ => "array"

/-- Numbers in text are positional from `10 ^ -4` on; a half between two digits goes up. -/
def floatStyle : DoubleStyle := ⟨-4, false, .up⟩

def boolText (b : Bool) : List Char :=
  if b then "true".toList else "false".toList

mutual
/-- The bare text of a value, without quotation marks. -/
def text : Value → List Char
  | .bool b => boolText b
  | .int n => int64Text n
  | .float x => doubleText floatStyle x
  | .string s => s.toList
  | .array [] => ['[', ']']
  | .array (v :: vs) => '[' :: text v ++ restText vs

/-- The items after the first, up to the closing bracket. -/
def restText : List Value → List Char
  | [] => [']']
  | v :: vs => ',' :: ' ' :: text v ++ restText vs
end

end Value
end DocForms
