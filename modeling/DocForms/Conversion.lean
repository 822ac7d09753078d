import DocForms.Buffer.Reader
import DocForms.Compact.Reader
import DocForms.Json.Import
import DocForms.Sheet.Reader

namespace DocForms
open Text

/-- The text of a source file; bytes that are no text are a fault of the line that they start on. -/
def sourceText (bytes : ByteArray) : Except Failure String :=
  (decodeUtf8 bytes).mapError fun fault =>
    .parse ((bytes.data.toList.take fault.validUpTo).count 0x0A + 1) (.encoding fault)

namespace Conversion

def compactToSheet (r : Registry) (text : String) : Except Failure String := do
  Sheet.write r {} (← Compact.read text)

def sheetToCompact (r : Registry) (text : String) : Except Failure String := do
  Compact.write (← Sheet.read r text) ∅

def compactToBuffer (text : String) : Except Failure ByteArray := do
  Buffer.write (← Compact.read text)

def bufferToCompact (bytes : ByteArray) : Except Failure String := do
  Compact.write (← Buffer.read bytes) ∅

def sheetToBuffer (r : Registry) (text : String) : Except Failure ByteArray := do
  Buffer.write (← Sheet.read r text)

def bufferToSheet (r : Registry) (bytes : ByteArray) : Except Failure String := do
  Sheet.write r {} (← Buffer.read bytes)

def jsonToCompact (json : String) : Except Failure String := do
  Compact.write (← Json.readDocument json) ∅

def compactToJson (text : String) : Except Failure String := do
  Json.write (← Compact.read text)

/-- The sheet of a source file, to be edited. -/
def renderForEditing (r : Registry) (source : ByteArray) : Except Failure String := do
  compactToSheet r (← sourceText source)

end Conversion
end DocForms
