import DocForms.Cache.Basic

namespace DocForms.Cache

/-- The references in a source that can be read; there are none in any other. -/
def carriedReferences (existing : Option ByteArray) : References :=
  let read : Except Failure (Document × References) := do
    match existing with
    | some bytes => Compact.readWithReferences (← sourceText bytes)
    | none => return (.empty, ∅)
  match read with
  | .ok (_, refs) => refs
  | .error _ => ∅

/-- A source with a record must hold what the record says. -/
def checkConflict (c : Cache) (names : SourceNames) (existing : Option ByteArray) :
    Except Failure Unit :=
  match c.manifest.get? (keyOf names) with
  | none => .ok ()
  | some r =>
    let found := existing.map Fingerprint.of
    if found = some r.fingerprint then .ok ()
    else .error (.conflict (c.sourcePath names) r.fingerprint found)

/-- A document ready to be written to a source, with what the source holds. -/
structure Prepared where
  names : SourceNames
  buffer : ByteArray
  existing : Option ByteArray

def prepare (c : Cache) (disk : Disk) (d : Document) (source : String) : Except Failure Prepared := do
  let names ← c.sourceNames source
  let buffer ← Buffer.write d
  let path := c.sourcePath names
  let existing ← (disk.readExisting path).mapError fun _ => .io path
  return ⟨names, buffer, existing⟩

/-- The new text of a source, unless the source was changed by someone else. -/
def compose (c : Cache) (d : Document) (p : Prepared) : Except Failure String := do
  c.checkConflict p.names p.existing
  Compact.write d (carriedReferences p.existing)

/-- Writes a document to a source, keeping the references that the source holds. -/
def apply (env : Environment) (c : Cache) (disk : Disk) (d : Document) (source : String) :
    Disk × Cache × Except Failure Report :=
  match c.prepare disk d source with
  | .error f => (disk, c, .error f)
  | .ok p =>
    let key := keyOf p.names
    let c := c.refresh disk key
    match c.compose d p with
    | .error f => (disk, c, .error f)
    | .ok text =>
      let path := c.sourcePath p.names
      match c.write env disk path text.toUTF8 with
      | (disk, false) => (disk, c, .error (.io path))
      | (disk, true) =>
        let (disk, made) :=
          c.publish env disk p.names (Fingerprint.of text.toUTF8) text p.buffer
        (disk, c.adopt key made, c.outcome p.names made)

/-- Reads an edited sheet and applies the document to a source, in a cache opened for it. -/
def commitEdit (env : Environment) (disk : Disk) (root source : String) (r : Registry)
    (sheet : String) : Disk × Except Failure Report :=
  match Sheet.read r sheet with
  | .error f => (disk, .error f)
  | .ok d =>
    let (disk, _, result) := (openAt disk root {}).apply env disk d source
    (disk, result)

end DocForms.Cache
