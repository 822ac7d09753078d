import DocForms.Fingerprint
import DocForms.Json.Parser
import DocForms.Json.Printer
import DocForms.Json.Structure
import DocForms.Time

namespace DocForms
open Json (Outline)

/-- The forms that are kept beside a source. -/
inductive ArtifactFormat
  | compact
  | buffer
deriving DecidableEq, Repr, Inhabited

namespace ArtifactFormat

def all : List ArtifactFormat := [.compact, .buffer]

/-- The extension of the files, which also names the format. -/
def extension : ArtifactFormat → String
  | .compact => "llm"
  | .buffer => "machine"

end ArtifactFormat

/-- A file derived from a source, with the contents that both had. -/
structure Artifact where
  path : String
  format : ArtifactFormat
  content : Fingerprint
  source : Fingerprint
deriving DecidableEq, Repr

/-- What was last written for a source, and when. -/
structure SourceRecord where
  fingerprint : Fingerprint
  artifacts : List Artifact
  writtenAt : Instant
deriving DecidableEq, Repr

def SourceRecord.isNewerThan (r held : SourceRecord) : Bool :=
  held.writtenAt.before r.writtenAt

namespace Fingerprint

def toJson (f : Fingerprint) : Json :=
  .array (f.bytes.toList.map fun b => .ofNat b.toNat)

def byteOfJson? (j : Json) : Option UInt8 := do
  let n ← j.nat?
  if n < 256 then some (UInt8.ofNat n) else none

def ofJson? (j : Json) : Option Fingerprint := do
  let bytes ← (← j.array?).mapM byteOfJson?
  if h : bytes.toArray.size = 32 then some ⟨⟨bytes.toArray, h⟩⟩ else none

end Fingerprint

namespace ArtifactFormat

def ofName? (name : String) : Option ArtifactFormat :=
  all.find? fun f => f.extension = name

def ofJson? : Json → Option ArtifactFormat
  | .string s => ofName? s
  | .object [(s, .null)] => ofName? s
  | _ => none

end ArtifactFormat

namespace Artifact

def toJson (a : Artifact) : Json :=
  .object [("path", .string a.path), ("format", .string a.format.extension),
    ("content_fingerprint", a.content.toJson), ("source_fingerprint", a.source.toJson)]

def ofOutline? (o : Outline) : Option Artifact := do
  match ← o.fields? ["path", "format", "content_fingerprint", "source_fingerprint"] with
  | [path, format, content, source] =>
    return ⟨← path.string?, ← ArtifactFormat.ofJson? (← format.toJson?),
      ← Fingerprint.ofJson? (← content.toJson?), ← Fingerprint.ofJson? (← source.toJson?)⟩
  | _ => none

end Artifact

namespace SourceRecord

def toJson (r : SourceRecord) : Json :=
  .object [("fingerprint", r.fingerprint.toJson),
    ("artifacts", .array (r.artifacts.map Artifact.toJson)),
    ("written_at", .string (String.ofList r.writtenAt.text))]

def ofOutline? (o : Outline) : Option SourceRecord := do
  match ← o.fields? ["fingerprint", "artifacts", "written_at"] with
  | [fingerprint, artifacts, writtenAt] =>
    return ⟨← Fingerprint.ofJson? (← fingerprint.toJson?),
      ← (← artifacts.items?).mapM Artifact.ofOutline?,
      ← Instant.read? (← writtenAt.string?).toList⟩
  | _ => none

/-- The version of the stored form. -/
def storedVersion : Nat := 1

/-- The stored form of a record names the source that it belongs to. -/
def storedJson (key : String) (r : SourceRecord) : Json :=
  .object [("version", .ofNat storedVersion), ("source", .string key), ("record", r.toJson)]

def storedText (key : String) (r : SourceRecord) : String :=
  (storedJson key r).pretty

/-- Reads the stored form of the record for a key. A record of another version or another source is
none. -/
def ofStored? (key : String) (o : Outline) : Option SourceRecord := do
  match ← o.fields? ["version", "source", "record"] with
  | [version, source, record] =>
    let r ← ofOutline? record
    if (← (← version.toJson?).nat?) = storedVersion ∧ (← source.string?) = key then some r else none
  | _ => none

def readStored? (key : String) (content : ByteArray) : Option SourceRecord := do
  ofStored? key (← Outline.ofBytes? content)

end SourceRecord
end DocForms
