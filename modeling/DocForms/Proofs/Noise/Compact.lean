import DocForms.Proofs.Compact.Locations
import DocForms.Proofs.Noise.Lines
import DocForms.Proofs.Noise.Moves

namespace DocForms.Compact
open Text

def Placed.moved (place : Nat → Nat) (p : Placed) : Placed :=
  { p with line := place p.line }

/-- A draft whose headings and context lines have other places. -/
def Draft.moved (place : Nat → Nat) (d : Draft) : Draft :=
  { d with
    closed := d.closed.map (Placed.moved place)
    current := d.current.map (Placed.moved place)
    contextLine := d.contextLine.map place }

section Moved
variable {place : Nat → Nat}

theorem moved_placed (d : Draft) : (d.moved place).placed = d.placed.map (Placed.moved place) := by
  rw [Draft.placed, Draft.placed, List.map_append, ← Option.toList_map]
  rfl

theorem moved_close (d : Draft) : (d.moved place).close = d.close.moved place := by
  rw [Draft.close, moved_placed]
  rfl

theorem moved_document (d : Draft) : (d.moved place).document = d.document := by
  rw [Draft.document, moved_placed, List.map_map]
  rfl

theorem add_context_entry_moves (n : Nat) (d : Draft) (entry : List Char) :
    Moves place (Draft.moved place) (d.addContextEntry n entry)
      ((d.moved place).addContextEntry (place n) entry) := by
  rw [Draft.addContextEntry, Draft.addContextEntry]
  split
  · refine .ite (.parse _ _) (.ite (.parse _ _) ?_)
    exact .bind (.map_error _ _ _) fun v _ => .ok _
  · exact .parse _ _

theorem add_context_moves (n : Nat) (d : Draft) (fields : List Char) :
    Moves place (Draft.moved place) (d.addContext n fields)
      ((d.moved place).addContext (place n) fields) := by
  have hline : { d.moved place with contextLine := (d.moved place).contextLine <|> some (place n) } =
      ({ d with contextLine := d.contextLine <|> some n } : Draft).moved place := by
    cases hcontext : d.contextLine <;> simp [Draft.moved, hcontext]
  rw [Draft.addContext, Draft.addContext, hline]
  refine .ite (.ok _) (.bind (.map_error _ _ _) fun entries _ => ?_)
  exact .foldlM_same (add_context_entry_moves n) entries _

theorem add_reference_moves (n : Nat) (d : Draft) (reference : List Char) :
    Moves place (Draft.moved place) (d.addReference n reference)
      ((d.moved place).addReference (place n) reference) := by
  rw [Draft.addReference, Draft.addReference]
  split
  · refine .ite (.parse _ _) (.ite (.parse _ _) ?_)
    exact .bind (.map_error _ _ _) fun target _ => .ok _
  · exact .parse _ _

theorem open_section_moves (n : Nat) (d : Draft) (heading : List Char) :
    Moves place (Draft.moved place) (d.openSection n heading)
      ((d.moved place).openSection (place n) heading) := by
  have hplaced (name : String) : (d.moved place).placed.any (·.table.id == name) =
      d.placed.any (·.table.id == name) := by
    rw [moved_placed, List.any_map]
    rfl
  rw [Draft.openSection, Draft.openSection]
  split
  · refine .ite (.parse _ _) ?_
    split
    · dsimp only
      rw [hplaced]
      refine .ite (.parse _ _) (.ite (.parse _ _) ?_)
      exact .bind (.map_error _ _ _) fun columns _ => .ok _
    · exact .parse _ _
  · exact .parse _ _

theorem add_row_moves (n : Nat) (d : Draft) (text : List Char) :
    Moves place (Draft.moved place) (d.addRow n text) ((d.moved place).addRow (place n) text) := by
  rw [Draft.addRow, Draft.addRow]
  cases hcurrent : d.current with
  | none =>
    have hnone : (d.moved place).current = none := by rw [Draft.moved, hcurrent]; rfl
    rw [hnone]
    exact .parse _ _
  | some p =>
    have hsome : (d.moved place).current = some (p.moved place) := by rw [Draft.moved, hcurrent]; rfl
    rw [hsome]
    refine .bind (.map_error _ _ _) fun fields _ => .ite (.parse _ _) ?_
    exact .bind (.mapM_same (fun cell => .map_error _ _ _) _) fun row _ => .ok _

theorem add_line_moves (d : Draft) (l : Nat × List Char) :
    Moves place (Draft.moved place) (d.addLine l) ((d.moved place).addLine (moveLine place l)) := by
  rw [add_line_eq, add_line_eq, moved_close]
  dsimp only [moveLine]
  split
  · exact .ok _
  · exact add_context_moves _ _ _
  · exact add_reference_moves _ _ _
  · exact open_section_moves _ _ _
  · exact add_row_moves _ _ _

end Moved

/-- A draft knows a line to blame for its first violation. -/
theorem blame_known {ls : List (Nat × List Char)} {d : Draft} (hd : d.Shows ls) {x : Violation}
    {rest : List Violation} (h : d.document.violations = x :: rest) :
    headingLine? Placed.line (·.table.id) d.placed x ≠ none ∨ d.contextLine ≠ none := by
  obtain ⟨part, -, hraised⟩ := Document.first_raised hd.named h
  rcases hraised with ⟨key, hkey, -, -⟩ | ⟨s, hs, -, hfirst⟩
  · right
    obtain ⟨l, hl, hfield⟩ := (hd.fields key).mp hkey
    rw [hd.firstContext, firstContext?, ne_eq, Option.map_eq_none_iff]
    intro hnone
    exact List.find?_eq_none.mp hnone l hl hfield.context
  · left
    obtain ⟨p, hp, rfl⟩ := List.mem_map.mp hs
    obtain ⟨hid, hcolumns⟩ := hd.tables p hp
    have hx := hfirst.section_eq.resolve_right (hfirst.not_of_name hid hcolumns)
    rw [headingLine?, hx, Option.bind_some, (find_placed Placed.line hd.differ hp).1]
    exact Option.some_ne_none _

theorem finish_moves {place : Nat → Nat} {ls : List (Nat × List Char)} {d : Draft} (hd : d.Shows ls) :
    Moves place id d.finish (d.moved place).finish := by
  rw [Draft.finish, Draft.finish, moved_document]
  refine .bind (.check_read fun x rest hviolations => ?_) fun document _ => .ok _
  have hline := blame_moved place (headingLine? Placed.line (·.table.id) d.placed x) d.contextLine
  rw [← heading_line_moved (Placed.moved place) (fun _ => rfl) (fun _ => rfl), ← moved_placed] at hline
  refine hline.resolve_right fun hnone => ?_
  exact (blame_known hd hviolations).elim (· hnone.1) (· hnone.2)

theorem blank_line_kind {l : List Char} (h : isBlankLine l = true) : LineKind.of l = .blank := by
  have hrest : isBlankLine (dropEndWhile (· == '\r') l) = true := by
    refine List.all_eq_true.mpr fun c hc => List.all_eq_true.mp h c ?_
    exact List.mem_reverse.mp ((List.dropWhile_suffix _).mem (List.mem_reverse.mp hc))
  rw [LineKind.of, if_pos hrest]

/-- Blank lines among those of a compact text move its lines, and nothing else. -/
theorem read_among_blanks {i : Insertion} {text text' : String} (hi : i.Of (isBlankLine · = true))
    (hinto : i.Into text text') :
    readWithReferences text' = (readWithReferences text).mapError (Failure.moved i.place) := by
  have hskip (d : Draft) (l : Nat × List Char) (hl : (!isBlankLine l.2) = false) :
      d.addLine l = .ok d := by
    rw [add_line_eq, blank_line_kind (by simpa using hl)]
  have hlines : (numbered (lines text'.toList)).filter (fun l => !isBlankLine l.2) =
      ((numbered (lines text.toList)).filter fun l => !isBlankLine l.2).map (moveLine i.place) :=
    Insertion.filter_text hinto hi (!isBlankLine ·) (by simp)
  have hfold : Moves i.place (Draft.moved i.place)
      ((numbered (lines text.toList)).foldlM Draft.addLine {})
      ((numbered (lines text'.toList)).foldlM Draft.addLine {}) := by
    rw [← foldlM_filter hskip (numbered (lines text.toList)),
      ← foldlM_filter hskip (numbered (lines text'.toList)), hlines]
    exact .foldlM add_line_moves {}
  have hread := hfold.bind fun d hd => finish_moves (add_lines_shows hd)
  rw [Moves, Except.map_id] at hread
  exact hread

/-- Carriage returns at the ends of lines are not looked at. -/
theorem read_with_returns (text : String) :
    readWithReferences (String.ofList (withReturns text.toList)) = readWithReferences text := by
  have hkind (l m : List Char) (h : Returned l m) : LineKind.of m = LineKind.of l := by
    rw [LineKind.of, LineKind.of, h.drop_returns]
  have hlines := numbered_alike hkind (lines_with_returns text.toList)
  have hstep (d : Draft) (l m : Nat × List Char)
      (h : (l.1, LineKind.of l.2) = (m.1, LineKind.of m.2)) : d.addLine l = d.addLine m := by
    obtain ⟨hnumber, hkind⟩ := Prod.mk.inj h
    rw [add_line_eq, add_line_eq, hnumber, hkind]
  rw [readWithReferences, readWithReferences, readLines, readLines, String.toList_ofList,
    foldlM_congr hstep hlines]

end DocForms.Compact
