import DocForms.FileTree
import DocForms.Manifest.Basic

namespace DocForms.Manifest
open Text

def recordExtension : String := ".json"

/-- Continues a path by the pieces of a key; the last piece gets the extension. -/
def pushKey (path : String) : List String → String
  | [] => path
  | [name] => Path.join path (name ++ recordExtension)
  | piece :: pieces => pushKey (Path.join path piece) pieces

/-- The file of the record for a key: the directories repeat those of the source, and the name is that of
the source with an extension of its own. -/
def recordPath (dir key : String) : String :=
  pushKey dir (Path.pieces key)

/-- The key of a source given by a path: its names, joined by slashes. -/
def sourceKey (path : String) : String :=
  Path.ofNames ((Path.components path).filterMap Path.Component.name?)

/-- The text before an extension of records. -/
def dropExtension? (s : String) : Option String :=
  if recordExtension.toList.isSuffixOf s.toList then
    some (String.ofList (s.toList.take (s.length - recordExtension.length)))
  else none

/-- The key that a file in the directory of records stands for. -/
def keyOfRecord? (names : List String) : Option String := do
  let key ← dropExtension? (Path.ofNames names)
  if key.isEmpty ∨ key.toList.getLast? = some '/' then none else some key

/-- The record in the file for a key. Whatever is wrong with the file, there is no record then. -/
def loadRecord? (t : FileTree) (dir key : String) : Option SourceRecord :=
  match t.read (recordPath dir key) with
  | .ok content => SourceRecord.readStored? key content
  | .error _ => none

/-- The files in a directory that are named like records. -/
def recordFiles (t : FileTree) (dir : String) : List Place :=
  match t.place dir with
  | .ok p =>
    if t.isDirectory p then
      (t.filesBelow p).filter fun names =>
        names.getLast?.any fun name => recordExtension.toList.isSuffixOf name.toList
    else []
  | .error _ => []

/-- All records in a directory. -/
def load (t : FileTree) (dir : String) : Manifest :=
  ((recordFiles t dir).filterMap keyOfRecord?).foldl
    (fun m key =>
      match loadRecord? t dir key with
      | some r => m.insert key r
      | none => m)
    empty

end DocForms.Manifest
