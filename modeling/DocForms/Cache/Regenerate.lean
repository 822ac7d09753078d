import DocForms.Cache.Basic

namespace DocForms.Cache

/-- A source that was read: the fingerprint of its bytes, and the forms of its document. -/
structure Derived where
  names : SourceNames
  fingerprint : Fingerprint
  text : String
  buffer : ByteArray

def derive (c : Cache) (disk : Disk) (source : String) : Except Failure Derived := do
  let names ← c.sourceNames source
  let path := c.sourcePath names
  let bytes ← (disk.tree.read path).mapError fun _ => .io path
  let (d, refs) ← Compact.readWithReferences (← sourceText bytes)
  let text ← Compact.write d refs
  let buffer ← Buffer.write d
  return ⟨names, Fingerprint.of bytes, text, buffer⟩

/-- Makes the files of one source again from what the source holds. The source itself stays as it is. -/
def regenerateOne (env : Environment) (c : Cache) (disk : Disk) (source : String) :
    Disk × Cache × Except Failure Report :=
  match c.derive disk source with
  | .error f => (disk, c, .error f)
  | .ok s =>
    let (disk, made) := c.publish env disk s.names s.fingerprint s.text s.buffer
    (disk, c.adopt (keyOf s.names) made, c.outcome s.names made)

/-- Makes the files of each source again and gives the outcomes in the order of the sources. -/
def regenerate (env : Environment) : Cache → Disk → List String →
    Disk × Cache × List (String × Except Failure Report)
  | c, disk, [] => (disk, c, [])
  | c, disk, source :: sources =>
    let (disk, c, first) := c.regenerateOne env disk source
    let (disk, c, rest) := c.regenerate env disk sources
    (disk, c, (source, first) :: rest)

end DocForms.Cache
