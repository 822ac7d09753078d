import DocForms.Path

namespace DocForms

/-- The names that lead to a place from the root. -/
abbrev Place := List String

inductive Entry
  | file (content : ByteArray)
  | directory

/-- What exists, apart from the root itself, which is a directory. -/
structure FileTree where
  entries : List (Place × Entry) := []

/-- Why a path cannot be read. -/
inductive FileFault
  | notFound
  | notADirectory
  | isADirectory
  | badName
deriving DecidableEq, Repr

namespace FileTree

def find? (t : FileTree) (p : Place) : Option Entry :=
  if p.isEmpty then some .directory else t.entries.lookup p

def isDirectory (t : FileTree) (p : Place) : Bool :=
  match t.find? p with
  | some .directory => true
  | _ => false

def put (t : FileTree) (p : Place) (e : Entry) : FileTree :=
  ⟨(p, e) :: t.entries.filter (·.1 != p)⟩

/-- Removes a place with everything below it. -/
def remove (t : FileTree) (p : Place) : FileTree :=
  ⟨t.entries.filter fun e => !p.isPrefixOf e.1⟩

/-- A name has at most 255 bytes. -/
def isUsableName (name : String) : Bool :=
  name.utf8ByteSize ≤ 255

/-- A path has at most 4095 bytes and no zero character. -/
def isUsablePath (path : String) : Bool :=
  path.utf8ByteSize ≤ 4095 && !path.toList.contains '\x00'

/-- The place that pieces of a path lead to from a place. All but the last step start from directories;
the place reached need not exist. -/
def walk (t : FileTree) (p : Place) : List String → Except FileFault Place
  | [] => .ok p
  | piece :: rest =>
    match t.find? p with
    | none => .error .notFound
    | some (.file _) => .error .notADirectory
    | some .directory =>
      if piece = "" ∨ piece = "." then t.walk p rest
      else if piece = ".." then t.walk p.dropLast rest
      else if isUsableName piece then t.walk (p ++ [piece]) rest
      else .error .badName

/-- The place that an absolute path leads to. -/
def place (t : FileTree) (path : String) : Except FileFault Place :=
  if isUsablePath path then t.walk [] (Path.pieces path) else .error .badName

def read (t : FileTree) (path : String) : Except FileFault ByteArray := do
  match t.find? (← t.place path) with
  | some (.file content) => return content
  | some .directory => .error .isADirectory
  | none => .error .notFound

/-- Creates the directories that pieces of a path lead through, as far as it can; tells the place
reached. -/
def makeDirectories (t : FileTree) (p : Place) : List String → FileTree × Option Place
  | [] => (t, some p)
  | piece :: rest =>
    if piece = "" ∨ piece = "." then t.makeDirectories p rest
    else if piece = ".." then t.makeDirectories p.dropLast rest
    else if !isUsableName piece then (t, none)
    else
      let next := p ++ [piece]
      match t.find? next with
      | some .directory => t.makeDirectories next rest
      | some (.file _) => (t, none)
      | none => (t.put next .directory).makeDirectories next rest

/-- Creates the directories that a path leads through; tells the place of the last one. -/
def makePath (t : FileTree) (names : List String) : FileTree × Option Place :=
  if isUsablePath (Path.ofNames names) then t.makeDirectories [] names else (t, none)

/-- Puts a file into place under its last name, with the directories that lead to it. A directory is
never replaced. -/
def write (t : FileTree) (path : String) (content : ByteArray) : FileTree × Bool :=
  let names := Path.pieces path
  match t.makePath names.dropLast, names.getLast? with
  | (t, some parent), some name =>
    let p := parent ++ [name]
    if isUsableName name && isUsablePath path && !t.isDirectory p then
      (t.put p (.file content), true)
    else (t, false)
  | (t, _), _ => (t, false)

/-- The places below a directory, as the names that lead to them from there. -/
def below (t : FileTree) (p : Place) : List (Place × Entry) :=
  t.entries.filterMap fun (q, e) =>
    if p.isPrefixOf q ∧ q ≠ p then some (q.drop p.length, e) else none

/-- The files below a directory. -/
def filesBelow (t : FileTree) (p : Place) : List Place :=
  (t.below p).filterMap fun (q, e) =>
    match e with
    | .file _ => some q
    | .directory => none

end FileTree
end DocForms
