import DocForms.Text.Character
import DocForms.Text.Hidden

namespace DocForms.Text

/-- Code points in escapes are bare hexadecimal numbers between braces. -/
def shownChar (c : Char) : List Char :=
  if c = '"' then ['\\', '"']
  else if c = '\\' then ['\\', '\\']
  else if c = '\n' then ['\\', 'n']
  else if c = '\r' then ['\\', 'r']
  else if c = '\t' then ['\\', 't']
  else if c.toNat = 0 then ['\\', '0']
  else if isHidden c then ['\\', 'u', '{'] ++ hexText c.toNat ++ ['}']
  else [c]

def shownChars (s : List Char) : List Char :=
  '"' :: s.flatMap shownChar ++ ['"']

/-- The form in which messages cite a name or a field: between quotation marks, with every character that
would not show as itself written as an escape. -/
def shown (s : String) : String :=
  String.ofList (shownChars s.toList)

end DocForms.Text
