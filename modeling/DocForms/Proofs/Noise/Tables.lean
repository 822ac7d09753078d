import DocForms.Layout.Records
import DocForms.Proofs.Noise.Lines
import DocForms.Proofs.Noise.Moves

namespace DocForms.Layout
open Text

def Paragraph.moved (place : Nat → Nat) (p : Paragraph) : Paragraph :=
  ⟨moveLine place p.head, p.body.map (moveLine place)⟩

/-- A row of a table at another line. -/
def moveRow (place : Nat → Nat) (row : Nat × List (List Char)) : Nat × List (List Char) :=
  (place row.1, row.2)

def Table.moved (place : Nat → Nat) (t : Table) : Table :=
  { t with rows := t.rows.map (moveRow place) }

section Records
variable (place : Nat → Nat)

theorem count_blanks_moved (blanks : Nat) (ls : List Line) :
    countBlanks blanks (ls.map (moveLine place)) =
      (countBlanks blanks ls).map fun l => (l.1, moveLine place l.2) := by
  induction ls generalizing blanks with
  | nil => rfl
  | cons l ls ih =>
    rw [List.map_cons, countBlanks, countBlanks, ih, ih]
    by_cases hl : isBlankLine l.2 = true <;> simp [moveLine, hl]

theorem cons_line_moved (l : Line) (blanks : Nat) (rs : List Record) :
    consLine (moveLine place l) blanks (rs.map (List.map (Paragraph.moved place))) =
      (consLine l blanks rs).map (List.map (Paragraph.moved place)) := by
  rcases rs with _ | ⟨_ | ⟨p, ps⟩, rs⟩
  · rfl
  · rfl
  · simp only [List.map_cons, consLine]
    split_ifs <;> rfl

theorem assemble_moved (ls : List (Nat × Line)) :
    assemble (ls.map fun l => (l.1, moveLine place l.2)) =
      (assemble ls).map (List.map (Paragraph.moved place)) := by
  induction ls with
  | nil => rfl
  | cons l rest ih =>
    cases rest with
    | nil => rfl
    | cons next rest =>
      rw [List.map_cons] at ih ⊢
      rw [List.map_cons, assemble, ih, cons_line_moved, assemble]

/-- Records are told apart by the blank lines between them, which move along with the others. -/
theorem records_moved (ls : List Line) :
    records (ls.map (moveLine place)) = (records ls).map (List.map (Paragraph.moved place)) := by
  rw [records, count_blanks_moved, assemble_moved, records]

end Records

section Reading
variable {place : Nat → Nat}

theorem read_cells_moves (l : Line) : Moves place id (readCells l) (readCells (moveLine place l)) :=
  .map_error _ _ _

theorem read_under_moves (header : List (List Char)) (l : Line) :
    Moves place (moveRow place) (readUnder header l) (readUnder header (moveLine place l)) :=
  (read_cells_moves l).bind fun cells _ => .ite (.ok (l.1, cells)) (.parse _ _)

theorem read_group_moves (p : Paragraph) :
    Moves place (Table.moved place) (readGroup p) (readGroup (p.moved place)) := by
  refine (read_cells_moves p.head).bind fun header _ => ?_
  exact (Moves.mapM (read_under_moves header)).bind fun rows _ => .ok _

theorem add_group_moves (t : Table) (p : Paragraph) :
    Moves place (Table.moved place) (addGroup t p) (addGroup (t.moved place) (p.moved place)) := by
  have hbody : (p.moved place).body.length = p.body.length := List.length_map _
  have hrows : (t.moved place).rows.length = t.rows.length := List.length_map _
  rw [addGroup, addGroup, hbody, hrows]
  refine (read_cells_moves p.head).bind fun header _ => .ite ?_ (.parse _ _)
  refine (Moves.mapM (read_under_moves header)).bind fun rows _ => ?_
  have hbeside : (t.moved place).rows.zipWith (fun a b => (a.1, a.2 ++ b.2)) (rows.map (moveRow place)) =
      (t.rows.zipWith (fun a b => (a.1, a.2 ++ b.2)) rows).map (moveRow place) := by
    rw [Table.moved, List.zipWith_map, List.map_zipWith]
    rfl
  rw [hbeside]
  exact .ok _

theorem read_record_moves (r : Record) :
    Moves place (Table.moved place) (readRecord r) (readRecord (r.map (Paragraph.moved place))) := by
  cases r with
  | nil => exact .ok _
  | cons p ps => exact (read_group_moves p).bind fun t _ => .foldlM add_group_moves t

/-- A record without lines is blamed on line zero, which stays where it is. -/
theorem add_record_moves (hzero : place 0 = 0) (t : Table) (r : Record) :
    Moves place (Table.moved place) (addRecord t r)
      (addRecord (t.moved place) (r.map (Paragraph.moved place))) := by
  refine (read_record_moves r).bind fun below _ => .ite ?_ ?_
  · have hrows : (t.moved place).rows ++ (below.moved place).rows =
        (t.rows ++ below.rows).map (moveRow place) := List.map_append.symm
    rw [hrows]
    exact .ok _
  · cases r with
    | nil =>
      have hblame : Moves place (Table.moved place) (.error (.parse 0 (.table .headerMismatch)))
          (.error (.parse (place 0) (.table .headerMismatch))) := .parse _ _
      rwa [hzero] at hblame
    | cons p ps => exact .parse _ _

theorem parse_moves (hzero : place 0 = 0) (ls : List Line) :
    Moves place (Table.moved place) (parse ls) (parse (ls.map (moveLine place))) := by
  rw [parse, parse, records_moved]
  cases records ls with
  | nil => exact .ok _
  | cons r rs => exact (read_record_moves r).bind fun t _ => .foldlM (add_record_moves hzero) t

end Reading
end DocForms.Layout
