import DocForms.Document.Violation
import DocForms.Text.Utf8

namespace DocForms
open Text

/-- Why a field does not hold a value. -/
inductive ValueFault
  | quoting (fault : QuoteFault)
  | notOfType (type : ColumnType) (field : List Char)
  | emptyItem
deriving DecidableEq, Repr

def ValueFault.message : ValueFault → String
  | .quoting fault => fault.message
  | .notOfType type field =>
    s!"invalid {type.label} value " ++ String.ofList (shownChars field)
  | .emptyItem => "empty array element"

/-- Faults of compact text. -/
inductive CompactFault
  | contextWithoutValue (entry : String)
  | referenceWithoutValue
  | invalidReferenceKey (key : String)
  | duplicateReference (key : String)
  | unknownSigil (rest : String)
  | unterminatedSection (id : String)
  | noColumns (id : String)
  | unknownSuffix (suffix : String)
  | invalidColumnName (name : String)
  | rowOutsideSection
  | fieldCount (found : Nat) (id : String) (expected : Nat)
deriving DecidableEq, Repr

def CompactFault.message : CompactFault → String
  | .contextWithoutValue entry => s!"context entry {shown entry} has no value"
  | .referenceWithoutValue => "reference line has no value"
  | .invalidReferenceKey key => s!"invalid reference key {shown key}"
  | .duplicateReference key => s!"duplicate reference {shown key}"
  | .unknownSigil rest => s!"unknown sigil #{rest}"
  | .unterminatedSection id => s!"unterminated section #{id}"
  | .noColumns id => s!"section {shown id} declares no columns"
  | .unknownSuffix suffix => s!"unknown type suffix %{suffix}"
  | .invalidColumnName name => s!"invalid column name {shown name}"
  | .rowOutsideSection => "row outside of any section"
  | .fieldCount found id expected =>
    s!"row has {found} fields, schema of {shown id} expects {expected}"

/-- Faults of aligned tables. -/
inductive TableFault
  | headerMismatch
  | groupRows (found first : Nat)
  | cellCount (found header : Nat)
deriving DecidableEq, Repr

def TableFault.message : TableFault → String
  | .headerMismatch => "wrapped row header does not match the table header"
  | .groupRows found first => s!"column group has {found} rows, the first group has {first}"
  | .cellCount found header => s!"line has {found} cells, header has {header}"

/-- Faults of sheets. -/
inductive SheetFault
  | contentOutsideBlock
  | duplicateConfig
  | noEquals
  | noHeader (id : String)
  | unknownColumnType (label : String)
deriving DecidableEq, Repr

def SheetFault.message : SheetFault → String
  | .contentOutsideBlock => "content outside of any [section] block"
  | .duplicateConfig => "duplicate [config] block"
  | .noEquals => "expected `key = value`"
  | .noHeader id => s!"section {shown id} has no header line"
  | .unknownColumnType label => s!"unknown column type ({label})"

/-- Faults of JSON values that are no documents. -/
inductive ShapeFault
  | repeatedKey
  | fieldsDiffer
  | missingField (name : String)
  | null
  | notScalar
deriving DecidableEq, Repr

def ShapeFault.message : ShapeFault → String
  | .repeatedKey => "key appears twice once flattened"
  | .fieldsDiffer => "fields differ from the first row"
  | .missingField name => s!"missing field {shown name}"
  | .null => "null has no document form"
  | .notScalar => "expected a string, number or bool"

/-- Why a text cannot be read. -/
inductive ReadFault
  | quoting (fault : QuoteFault)
  | value (fault : ValueFault)
  | cell (column : String) (fault : ValueFault)
  | invalidContextKey (key : String)
  | duplicateContextKey (key : String)
  | duplicateSection (id : String)
  | compact (fault : CompactFault)
  | table (fault : TableFault)
  | sheet (fault : SheetFault)
  | notJson
  | rootNotObject
  | shape (location : String) (fault : ShapeFault)
  | encoding (fault : EncodingFault)
  | violation (v : Violation)
deriving DecidableEq, Repr

def ReadFault.message : ReadFault → String
  | .quoting fault => fault.message
  | .value fault => fault.message
  | .cell column fault => s!"column {shown column}: {fault.message}"
  | .invalidContextKey key => s!"invalid context key {shown key}"
  | .duplicateContextKey key => s!"duplicate context key {shown key}"
  | .duplicateSection id => s!"duplicate section id {shown id}"
  | .compact fault => fault.message
  | .table fault => fault.message
  | .sheet fault => fault.message
  | .notJson => "json syntax"
  | .rootNotObject => "JSON root must be an object"
  | .shape location fault => s!"`{location}`: {fault.message}"
  | .encoding fault => s!"invalid UTF-8: {fault.message}"
  | .violation v => v.message

/-- Why a buffer is refused. -/
inductive BufferFault
  | tooShort (size : Nat)
  | badMagic
  | unsupportedVersion (version : Nat)
  | reservedNotZero
  | sizeMismatch (stated actual : Nat)
  | fingerprintMismatch
  | heapOutOfBounds (start : Nat)
  | contextOutOfBounds
  | sectionsOutOfBounds
  | columnsOutOfBounds
  | rowsOutOfBounds
  | malformedName (position : Nat)
  | malformedValue (position : Nat)
  | wrongType (position : Nat)
  | unknownColumnType (code : Nat)
  | duplicateContextKey (key : String)
  | unreadableRow (index : Nat) (id : String)
  | violation (v : Violation)
  | truncatedHeader
  | truncatedSection
  /-- A read runs past the end of the buffer, which the checks before it must rule out. -/
  | overrun (position : Nat)
deriving DecidableEq, Repr

def BufferFault.message : BufferFault → String
  | .tooShort size => s!"buffer of {size} bytes is shorter than the header"
  | .badMagic => "bad magic"
  | .unsupportedVersion version => s!"unsupported version {version}"
  | .reservedNotZero => "reserved header bytes are not zero"
  | .sizeMismatch stated actual =>
    s!"header length {stated} does not match buffer length {actual}"
  | .fingerprintMismatch => "fingerprint mismatch"
  | .heapOutOfBounds start => s!"heap offset {start} out of bounds"
  | .contextOutOfBounds => "context table out of bounds"
  | .sectionsOutOfBounds => "section table out of bounds"
  | .columnsOutOfBounds => "column table out of bounds"
  | .rowsOutOfBounds => "rows out of bounds"
  | .malformedName position => s!"malformed name slot at {position}"
  | .malformedValue position => s!"malformed value slot at {position}"
  | .wrongType position => s!"value slot at {position} does not match its column type"
  | .unknownColumnType code => s!"unknown column type {code}"
  | .duplicateContextKey key => s!"duplicate context key {shown key}"
  | .unreadableRow index id => s!"unreadable row {index} in {shown id}"
  | .violation v => v.message
  | .truncatedHeader => "truncated header"
  | .truncatedSection => "truncated section descriptor"
  | .overrun position => s!"read past the end at {position}"

end DocForms
