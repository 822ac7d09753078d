import DocForms.Document.Value

namespace DocForms

inductive ColumnType
  | string
  | int
  | float
  | bool
  | base62
  | autoId
deriving DecidableEq, Repr, Inhabited

namespace ColumnType

/-- Every column type, in the order of its code. -/
def all : List ColumnType :=
  [.string, .int, .float, .bool, .base62, .autoId]

/-- The letter after the percent sign; plain string columns have none. -/
def suffix? : ColumnType → Option Char
  | .string => none
  | .int => some 'i'
  | .float => some 'f'
  | .bool => some 'b'
  | .base62 => some 'x'
  | .autoId => some '#'

/-- String columns may also be declared by a letter. -/
def ofSuffix? (c : Char) : Option ColumnType :=
  if c = 's' then some .string else all.find? fun t => t.suffix? = some c

def label : ColumnType → String
  | .string => "string"
  | .int => "int"
  | .float => "float"
  | .bool => "bool"
  | .base62 => "base62"
  | .autoId => "auto"

def ofLabel? (label : String) : Option ColumnType :=
  all.find? fun t => t.label = label

/-- The name in messages about mismatches. -/
def title : ColumnType → String
  | .string => "String"
  | .int => "Int"
  | .float => "Float"
  | .bool => "Bool"
  | .base62 => "Base62"
  | .autoId => "AutoId"

def code : ColumnType → UInt8
  | .string => 0
  | .int => 1
  | .float => 2
  | .bool => 3
  | .base62 => 4
  | .autoId => 5

def ofCode? (code : UInt8) : Option ColumnType :=
  all[code.toNat]?

/-- Numbers are set flush right. -/
def isNumeric : ColumnType → Bool
  | .int | .float | .base62 | .autoId => true
  | .string | .bool => false

/-- An auto-id column stores no values; a row's position is its value. -/
def isStored (t : ColumnType) : Bool :=
  t != .autoId

/-- Whether a scalar agrees with the type. -/
def acceptsScalar : ColumnType → Value → Bool
  | .string, .string _ => true
  | .int, .int _ => true
  | .float, .float _ => true
  | .bool, .bool _ => true
  | .base62, .int n => 0 ≤ n
  | _, _ => false

/-- Whether a scalar, or every item of an array, agrees with the type. -/
def accepts (t : ColumnType) : Value → Bool
  | .array items => items.all t.acceptsScalar
  | v => t.acceptsScalar v

end ColumnType
end DocForms
