import DocForms.Text.Fields

namespace DocForms.Path
open Text

/-- What stands between the slashes, empty pieces included. -/
def pieces (path : String) : List String :=
  (splitOn '/' path.toList).map String.ofList

def isAbsolute (path : String) : Bool :=
  path.toList.head? == some '/'

/-- The parts of a path that matter for where it leads. -/
inductive Component
  | root
  | current
  | parent
  | normal (name : String)
deriving DecidableEq, Repr

def Component.ofPiece? (piece : String) : Option Component :=
  if piece = "" ∨ piece = "." then none
  else if piece = ".." then some .parent
  else some (.normal piece)

/-- Empty pieces do not count, nor do single points, except one that starts a relative path. -/
def components (path : String) : List Component :=
  let names := (pieces path).filterMap Component.ofPiece?
  if isAbsolute path then .root :: names
  else if (pieces path).head? = some "." then .current :: names
  else names

def Component.name? : Component → Option String
  | .normal name => some name
  | _ => none

/-- Two texts that lead to the same place by the same names. -/
def same (a b : String) : Bool :=
  components a == components b

def Component.rank : Component → Nat
  | .root => 0
  | .current => 1
  | .parent => 2
  | .normal _ => 3

/-- Names are ordered by their characters, after all other components. -/
def Component.before (a b : Component) : Bool :=
  match a, b with
  | .normal x, .normal y => x < y
  | _, _ => a.rank < b.rank

/-- Paths are ordered component by component. -/
def componentsLe : List Component → List Component → Bool
  | [], _ => true
  | _ :: _, [] => false
  | a :: as, b :: bs => a.before b || (a == b && componentsLe as bs)

def sort (paths : List String) : List String :=
  paths.mergeSort fun a b => componentsLe (components a) (components b)

/-- A path continued by another; an absolute one starts anew. -/
def join (base path : String) : String :=
  if isAbsolute path || base.isEmpty then path
  else if base.toList.getLast? == some '/' then base ++ path
  else base ++ "/" ++ path

/-- Names joined to a relative path. -/
def ofNames (names : List String) : String :=
  "/".intercalate names

/-- What comes after the components of `base` in a path that begins with them. -/
def stripBase? (base path : List Component) : Option (List Component) :=
  if base.isPrefixOf path then some (path.drop base.length) else none

/-- What stands before and after the last point of a name; a name that only begins with a point has
none. -/
def splitName (name : String) : String × Option String :=
  match splitOnce '.' name.toList.reverse with
  | some (after, before) =>
    if before.isEmpty then (name, none)
    else (String.ofList before.reverse, some (String.ofList after.reverse))
  | none => (name, none)

def stem (name : String) : String :=
  (splitName name).1

def extension? (name : String) : Option String :=
  (splitName name).2

end DocForms.Path
