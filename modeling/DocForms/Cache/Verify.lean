import DocForms.Cache.Basic

namespace DocForms.Cache

/-- Artifacts that match their source, those that do not, and files that no record mentions. -/
structure Freshness where
  fresh : List String
  stale : List String
  untracked : List String
deriving DecidableEq, Repr

def Freshness.isConsistent (f : Freshness) : Bool :=
  f.stale.isEmpty

/-- Whether a file holds content with a given fingerprint. -/
def holds (disk : Disk) (path : String) (f : Fingerprint) : Bool :=
  match disk.tree.read path with
  | .ok content => Fingerprint.of content = f
  | .error _ => false

/-- An artifact is fresh if it and its source hold what the record says, and if it was made from what
the source holds. -/
def isFresh (c : Cache) (disk : Disk) (key : String) (r : SourceRecord) (a : Artifact) : Bool :=
  holds disk (Path.join c.root key) r.fingerprint &&
    holds disk (Path.join c.root a.path) a.content && a.source = r.fingerprint

/-- The records on disk together with those known, the newer one of each source. -/
def currentManifest (c : Cache) (disk : Disk) : Manifest :=
  (Manifest.load disk.tree c.manifestDir).mergeAll c.manifest.entries

def isArtifactName (name : String) : Bool :=
  (Path.extension? name).any fun e => ArtifactFormat.all.any fun f => f.extension = e

/-- Paths of the files below a directory that are named like artifacts; a directory that does not exist
has none. -/
def artifactFiles (disk : Disk) (dir : String) : Except Failure (List String) :=
  match disk.tree.place dir with
  | .error .notFound => .ok []
  | .error _ => .error (.io dir)
  | .ok p =>
    match disk.tree.find? p with
    | none => .ok []
    | some (.file _) => .error (.io dir)
    | some .directory =>
      .ok (((disk.tree.filesBelow p).filter fun names => names.getLast?.any isArtifactName).map
        fun names => Path.join dir (Path.ofNames names))

def verify (c : Cache) (disk : Disk) : Except Failure Freshness := do
  let tracked := (c.currentManifest disk).entries.flatMap fun (key, r) =>
    r.artifacts.map fun a => (Path.join c.root a.path, c.isFresh disk key r a)
  let found ← artifactFiles disk (Path.join c.root c.options.cacheDir)
  let known (path : String) : Bool := tracked.any fun t => Path.same t.1 path
  return {
    fresh := Path.sort ((tracked.filter (·.2)).map Prod.fst)
    stale := Path.sort ((tracked.filter (!·.2)).map Prod.fst)
    untracked := Path.sort (found.filter (!known ·)) }

/-- Writes records one after another and lists the keys of those that could not be written. -/
def persistAll (env : Environment) (c : Cache) :
    Disk → List (String × SourceRecord) → Disk × List String
  | disk, [] => (disk, [])
  | disk, (key, r) :: rest =>
    let (disk, saved) := c.persist env disk key r
    let (disk, failed) := c.persistAll env disk rest
    (disk, if saved then failed else key :: failed)

/-- Writes the records that are pending; those that cannot be written stay so, and the first of them is
reported. -/
def save (env : Environment) (c : Cache) (disk : Disk) : Disk × Cache × Except Failure Unit :=
  let waiting := c.manifest.entries.filter fun e => c.pending.contains e.1
  let (disk, failed) := c.persistAll env disk waiting
  let result := match failed with
    | [] => .ok ()
    | key :: _ => .error (.io (c.recordPath key))
  (disk, { c with pending := failed }, result)

def isSaved (c : Cache) : Bool :=
  c.pending.isEmpty

end DocForms.Cache
