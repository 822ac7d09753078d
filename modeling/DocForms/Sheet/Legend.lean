import DocForms.Document.Name
import DocForms.Registry
import DocForms.Text.Fields

namespace DocForms.Sheet
open Text

/-- A name as shown, and whether that is an expansion of the name meant. -/
structure ShownName where
  text : String
  expanded : Bool
deriving DecidableEq, Repr

/-- Whether a name may be shown in full: the full name leads back to it and is a name. -/
def isExpandable (r : Registry) (name : String) : Bool :=
  r.expand name != name && r.collapse (r.expand name) == name && isName (r.expand name)

/-- An expansion must not be the name of something else in the block. -/
def showName (r : Registry) (block : List String) (name : String) : ShownName :=
  if isExpandable r name && !block.contains (r.expand name) then ⟨r.expand name, true⟩
  else ⟨name, false⟩

def showNames (r : Registry) (block : List String) : List ShownName :=
  block.map (showName r block)

/-- A section id is never shown as the reserved one. -/
def showHeading (r : Registry) (id : String) : ShownName :=
  if isExpandable r id && r.expand id != reservedId then ⟨r.expand id, true⟩ else ⟨id, false⟩

def legendStart : List Char := "# expanded:".toList

/-- Headings stand in brackets in the legend, apart from the other names. -/
def bracketed (name : List Char) : List Char :=
  '[' :: name ++ [']']

/-- The legend of a block, if any of its names is expanded. -/
def legendEntries (heading? : Option ShownName) (names : List ShownName) : List (List Char) :=
  ((heading?.toList.filter (·.expanded)).map fun n => bracketed n.text.toList) ++
    (names.filter (·.expanded)).map (·.text.toList)

def legendLines (entries : List (List Char)) : List (List Char) :=
  if entries.isEmpty then [] else [legendStart ++ ' ' :: join [',', ' '] entries]

/-- Reads the entries that follow the start of a legend line. -/
def readLegend (list : List Char) : List (List Char) :=
  ((splitOn ',' list).map trim).filter fun entry => !entry.isEmpty

/-- The name meant by a shown one: a name in the legend is an expansion. -/
def nameMeant (r : Registry) (legend : List (List Char)) (shown : List Char) : String :=
  if legend.contains shown then r.collapse (String.ofList shown) else String.ofList shown

/-- The section id meant by a shown heading. -/
def headingMeant (r : Registry) (legend : List (List Char)) (shown : List Char) : String :=
  if legend.contains (bracketed shown) then r.collapse (String.ofList shown)
  else String.ofList shown

end DocForms.Sheet
