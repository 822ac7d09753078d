import DocForms.Text.Fields

namespace DocForms.Layout
open Text

structure Options where
  maxLineWidth : Nat := 120
  columnGap : Nat := 2
deriving DecidableEq, Repr, Inhabited

inductive Align
  | left
  | right
deriving DecidableEq, Repr, Inhabited

structure Heading where
  text : List Char
  align : Align
deriving DecidableEq, Repr, Inhabited

/-- The width of column `i`: its widest heading or cell, in characters. -/
def columnWidth (rows : List (List (List Char))) (h : Heading) (i : Nat) : Nat :=
  (rows.filterMap (·[i]?)).foldl (fun w cell => max w cell.length) h.text.length

def columnWidths (headings : List Heading) (rows : List (List (List Char))) : List Nat :=
  headings.zipIdx.map fun (h, i) => columnWidth rows h i

/-- Sizes of the groups of the remaining columns, when the group at hand has `count` columns that take
`used` characters. -/
def fillGroups (o : Options) (used count : Nat) : List Nat → List Nat
  | [] => [count]
  | w :: ws =>
    if used + o.columnGap + w ≤ o.maxLineWidth then
      fillGroups o (used + o.columnGap + w) (count + 1) ws
    else count :: fillGroups o w 1 ws

/-- Sizes of the groups: each takes as many columns as fit the line, and one at least. -/
def groupSizes (o : Options) : List Nat → List Nat
  | [] => []
  | w :: ws => fillGroups o w 1 ws

/-- Ranges of consecutive columns, the end exclusive. -/
def rangesFrom (start : Nat) : (sizes : List Nat) → List (Nat × Nat)
  | [] => []
  | n :: ns => (start, start + n) :: rangesFrom (start + n) ns

def groupColumns (o : Options) (widths : List Nat) : List (Nat × Nat) :=
  rangesFrom 0 (groupSizes o widths)

def pad (align : Align) (width : Nat) (cell : List Char) : List Char :=
  let blanks := List.replicate (width - cell.length) ' '
  match align with
  | .left => cell ++ blanks
  | .right => blanks ++ cell

/-- A cell for every column; missing cells are empty. -/
def padCells : List (Align × Nat) → List (List Char) → List (List Char)
  | [], _ => []
  | (align, w) :: cols, cells =>
    pad align w (cells.headD []) :: padCells cols cells.tail

/-- One line of a group of columns. -/
def groupLine (o : Options) (cols : List (Align × Nat)) (range : Nat × Nat)
    (cells : List (List Char)) : List Char :=
  let slice {α : Type} (xs : List α) : List α := (xs.drop range.1).take (range.2 - range.1)
  trimEnd (join (List.replicate o.columnGap ' ') (padCells (slice cols) (slice cells)))

/-- Parts with a separator between them, all in one list. -/
def stack {α : Type} (sep : List α) (parts : List (List α)) : List α :=
  (parts.intersperse sep).flatten

/-- The lines of a table. One empty line stands between the groups of a row and two between rows. -/
def render (o : Options) (headings : List Heading) (rows : List (List (List Char))) :
    List (List Char) :=
  let widths := columnWidths headings rows
  let cols := (headings.map Heading.align).zip widths
  let titles := headings.map Heading.text
  let line := groupLine o cols
  match groupColumns o widths with
  | first :: second :: more =>
    let groups := first :: second :: more
    if rows.isEmpty then stack [[]] (groups.map fun g => [line g titles])
    else
      stack [[], []] (rows.map fun row =>
        stack [[]] (groups.map fun g => [line g titles, line g row]))
  | _ =>
    let all := (0, headings.length)
    line all titles :: rows.map (line all)

end DocForms.Layout
