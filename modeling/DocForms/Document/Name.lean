import DocForms.Text.Character

namespace DocForms
open Text

def isNameStart (c : Char) : Bool :=
  isLetter c || c == '_'

def isNameRest (c : Char) : Bool :=
  isLetter c || isDigit c || c == '_' || c == '.' || c == '-'

/-- A name is a letter or underscore, then letters, digits, underscores, points and dashes. It needs no
quoting in any written form. -/
def isNameText : List Char → Bool
  | [] => false
  | c :: cs => isNameStart c && cs.all isNameRest

def isName (s : String) : Bool :=
  isNameText s.toList

/-- The section id that sheets keep for the context. -/
def reservedId : String := "config"

end DocForms
