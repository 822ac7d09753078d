import DocForms.Cache.Disk
import DocForms.Conversion
import DocForms.Manifest.Store

namespace DocForms.Cache

structure Options where
  cacheDir : String := ".dx/cache"
  writeAttempts : Nat := 3
  manifestDir : String := "manifest"
deriving DecidableEq, Repr, Inhabited

end Cache

/-- A cache as one user of it holds it: the records that it knows, and the keys of those that are not
saved yet. -/
structure Cache where
  root : String
  options : Cache.Options
  manifest : Manifest
  pending : List String

namespace Cache

/-- The names that lead to a source from the root. -/
abbrev SourceNames := List String

def manifestPath (root : String) (o : Options) : String :=
  Path.join (Path.join root o.cacheDir) o.manifestDir

def manifestDir (c : Cache) : String :=
  manifestPath c.root c.options

/-- Opens the cache of a root with the records found there. -/
def openAt (disk : Disk) (root : String) (o : Options) : Cache :=
  ⟨root, o, Manifest.load disk.tree (manifestPath root o), []⟩

/-- The components of a source path from the root on. -/
def relativeComponents? (c : Cache) (source : String) : Option (List Path.Component) :=
  if Path.isAbsolute source then
    Path.stripBase? (Path.components c.root) (Path.components source)
  else some (Path.components source)

/-- The names in a path that only leads downwards. -/
def namesOf? : List Path.Component → Option SourceNames
  | [] => some []
  | .current :: cs => namesOf? cs
  | .normal name :: cs => (namesOf? cs).map (name :: ·)
  | .root :: _ | .parent :: _ => none

/-- The names of a source below the root; any other path is refused. -/
def sourceNames (c : Cache) (source : String) : Except Failure SourceNames :=
  match (c.relativeComponents? source).bind namesOf? with
  | some (name :: names) => .ok (name :: names)
  | _ => .error (.outsideRoot source)

/-- The key of a source is its path from the root. -/
def keyOf (names : SourceNames) : String :=
  Path.ofNames names

def sourcePath (c : Cache) (names : SourceNames) : String :=
  Path.join c.root (keyOf names)

/-- The path of an artifact from the root: the directories of the source are repeated, and the extension
is that of the format. -/
def artifactPath (o : Options) (names : SourceNames) (format : ArtifactFormat) : String :=
  Path.join (Path.join o.cacheDir (Path.ofNames names.dropLast))
    (Path.stem (names.getLast?.getD "") ++ "." ++ format.extension)

def recordPath (c : Cache) (key : String) : String :=
  Manifest.recordPath c.manifestDir key

/-- What an operation on a source did. -/
structure Report where
  source : String
  fingerprint : Fingerprint
  artifacts : List Artifact
deriving DecidableEq, Repr

/-- Puts a file into place, within the attempts that the options allow. -/
def write (env : Environment) (c : Cache) (disk : Disk) (path : String) (content : ByteArray) :
    Disk × Bool :=
  disk.writeWithin env path content (max 1 c.options.writeAttempts)

def persist (env : Environment) (c : Cache) (disk : Disk) (key : String) (r : SourceRecord) :
    Disk × Bool :=
  c.write env disk (c.recordPath key) (r.storedText key).toUTF8

/-- Takes in the record on disk, if it is newer than the one known. -/
def refresh (disk : Disk) (c : Cache) (key : String) : Cache :=
  match Manifest.loadRecord? disk.tree c.manifestDir key with
  | some r => { c with manifest := c.manifest.merge key r }
  | none => c

/-- The derived files of a source and their contents. -/
def outputs (o : Options) (names : SourceNames) (text : String) (buffer : ByteArray) :
    List (ArtifactFormat × String × ByteArray) :=
  [(.compact, artifactPath o names .compact, text.toUTF8),
    (.buffer, artifactPath o names .buffer, buffer)]

/-- Writes files one after another and lists those that could not be written. -/
def writeOutputs (env : Environment) (c : Cache) :
    Disk → List (ArtifactFormat × String × ByteArray) → Disk × List String
  | disk, [] => (disk, [])
  | disk, (_, path, content) :: rest =>
    let full := Path.join c.root path
    let (disk, done) := c.write env disk full content
    let (disk, stale) := c.writeOutputs env disk rest
    (disk, if done then stale else full :: stale)

/-- A record that was made, whether it is on disk, and the files that could not be written. -/
structure Published where
  record : SourceRecord
  saved : Bool
  stale : List String

/-- Writes the artifacts of a source, then its record. -/
def publish (env : Environment) (c : Cache) (disk : Disk) (names : SourceNames)
    (source : Fingerprint) (text : String) (buffer : ByteArray) : Disk × Published :=
  let files := outputs c.options names text buffer
  let (disk, stale) := c.writeOutputs env disk files
  let artifacts := files.map fun (format, path, content) =>
    (⟨path, format, Fingerprint.of content, source⟩ : Artifact)
  let (disk, time) := disk.now env
  let record : SourceRecord := ⟨source, artifacts, time⟩
  let (disk, saved) := c.persist env disk (keyOf names) record
  (disk, ⟨record, saved, if saved then stale else stale ++ [c.recordPath (keyOf names)]⟩)

/-- Keeps the record that was made, and its key as pending unless it is on disk. -/
def adopt (c : Cache) (key : String) (p : Published) : Cache :=
  { c with
    manifest := c.manifest.insert key p.record
    pending := if p.saved then c.pending.erase key else c.pending.insert key }

def outcome (c : Cache) (names : SourceNames) (p : Published) : Except Failure Report :=
  let path := c.sourcePath names
  if p.stale.isEmpty then .ok ⟨path, p.record.fingerprint, p.record.artifacts⟩
  else .error (.staleCache path p.stale)

end Cache
end DocForms
