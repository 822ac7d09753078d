import DocForms.FileTree
import DocForms.Time

namespace DocForms.Cache

/-- Which attempts to write fail whatever the files are, and what the clock shows at each reading. -/
structure Environment where
  refuses : Nat → Bool
  clock : Nat → Instant

/-- Files, with the number of attempts to write and of readings of the clock so far: by these an
environment tells which attempts fail and what time it is. -/
structure Disk where
  tree : FileTree
  attempts : Nat := 0
  readings : Nat := 0

namespace Disk

def now (env : Environment) (disk : Disk) : Disk × Instant :=
  ({ disk with readings := disk.readings + 1 }, env.clock disk.readings)

/-- One attempt to put a file into place. An attempt that is refused changes no file. -/
def tryWrite (env : Environment) (disk : Disk) (path : String) (content : ByteArray) : Disk × Bool :=
  let counted := { disk with attempts := disk.attempts + 1 }
  if env.refuses disk.attempts then (counted, false)
  else
    let (tree, done) := disk.tree.write path content
    ({ counted with tree }, done)

/-- Attempts to put a file into place until one succeeds. -/
def writeWithin (env : Environment) (disk : Disk) (path : String) (content : ByteArray) :
    (attempts : Nat) → Disk × Bool
  | 0 => (disk, false)
  | n + 1 =>
    match disk.tryWrite env path content with
    | (disk, true) => (disk, true)
    | (disk, false) => disk.writeWithin env path content n

/-- The content of a file, or none where there is nothing. -/
def readExisting (disk : Disk) (path : String) : Except FileFault (Option ByteArray) :=
  match disk.tree.read path with
  | .ok content => .ok (some content)
  | .error .notFound => .ok none
  | .error fault => .error fault

end Disk
end DocForms.Cache
