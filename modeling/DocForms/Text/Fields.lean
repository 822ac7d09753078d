import DocForms.Text.Quoted

namespace DocForms.Text

/-- Where a scan stands with respect to quotation marks. -/
inductive Quoting
  | plain
  | quoted
  | escaped
deriving DecidableEq, Repr

namespace Quoting

def next : Quoting → Char → Quoting
  | .plain, c => if c = '"' then .quoted else .plain
  | .quoted, c => if c = '\\' then .escaped else if c = '"' then .plain else .quoted
  | .escaped, _ => .quoted

end Quoting

/-- Puts a character before the first field. -/
def consFirst (c : Char) : List (List Char) → List (List Char)
  | [] => [[c]]
  | field :: fields => (c :: field) :: fields

/-- The fields of the rest of a line; a line that ends inside quotation marks has none. -/
def splitFrom (sep : Char) : Quoting → List Char → Except QuoteFault (List (List Char))
  | q, [] => if q = .plain then .ok [[]] else .error .unterminated
  | q, c :: cs =>
    if q = .plain ∧ c ≠ '"' ∧ c = sep then (splitFrom sep .plain cs).map ([] :: ·)
    else (splitFrom sep (q.next c) cs).map (consFirst c)

/-- The fields between separators that stand outside quotation marks. -/
def splitQuoted (sep : Char) (s : List Char) : Except QuoteFault (List (List Char)) :=
  splitFrom sep .plain s

/-- The pieces between all occurrences of a separator; at least one. -/
def splitOn (sep : Char) : List Char → List (List Char)
  | [] => [[]]
  | c :: cs => if c = sep then [] :: splitOn sep cs else consFirst c (splitOn sep cs)

/-- What stands before and after the first occurrence of a separator. -/
def splitOnce (sep : Char) : List Char → Option (List Char × List Char)
  | [] => none
  | c :: cs => if c = sep then some ([], cs) else (splitOnce sep cs).map fun (a, b) => (c :: a, b)

/-- The lines of a text, without their line feeds; a final line feed ends the last line. -/
def lines (s : List Char) : List (List Char) :=
  let pieces := splitOn '\n' s
  if pieces.getLast? = some [] then pieces.dropLast else pieces

/-- Lines counted from one. -/
def numbered (ls : List (List Char)) : List (Nat × List Char) :=
  (List.range' 1 ls.length).zip ls

def dropEndWhile (p : Char → Bool) (s : List Char) : List Char :=
  (s.reverse.dropWhile p).reverse

def trimStart (s : List Char) : List Char :=
  s.dropWhile isBlank

def trimEnd (s : List Char) : List Char :=
  dropEndWhile isBlank s

def trim (s : List Char) : List Char :=
  trimEnd (trimStart s)

/-- Holds of an empty line and of one that has only blanks. -/
def isBlankLine (s : List Char) : Bool :=
  s.all isBlank

/-- What follows `start` in a text that begins with it. -/
def dropStart? (start s : List Char) : Option (List Char) :=
  if start.isPrefixOf s then some (s.drop start.length) else none

/-- What comes before the last character of a text that ends with `c`. -/
def dropLast? (c : Char) (s : List Char) : Option (List Char) :=
  if s.getLast? = some c then some s.dropLast else none

/-- Texts joined with a separator between them. -/
def join (sep : List Char) (parts : List (List Char)) : List Char :=
  (parts.intersperse sep).flatten

/-- A scan over the cells of a table line is in the gap before a cell or inside one. -/
inductive CellScan
  | gap
  | cell (q : Quoting)
deriving DecidableEq, Repr

/-- Cells of the rest of a table line. Two spaces outside quotation marks end a cell and open a gap. -/
def cellsFrom : CellScan → List Char → Except QuoteFault (List (List Char))
  | .gap, [] => .ok []
  | .gap, c :: cs =>
    if c = ' ' then cellsFrom .gap cs
    else (cellsFrom (.cell (Quoting.plain.next c)) cs).map (consFirst c)
  | .cell q, [] => if q = .plain then .ok [[]] else .error .unterminated
  | .cell q, [c] =>
    (cellsFrom (.cell (q.next c)) []).map (consFirst c)
  | .cell q, c :: d :: cs =>
    if q = .plain ∧ c = ' ' ∧ d = ' ' then (cellsFrom .gap cs).map ([] :: ·)
    else (cellsFrom (.cell (q.next c)) (d :: cs)).map (consFirst c)

/-- The cells of a table line: pieces between runs of two or more spaces. -/
def splitOnGaps (line : List Char) : Except QuoteFault (List (List Char)) :=
  cellsFrom .gap (trim line)

end DocForms.Text
