import DocForms.Proofs.Noise.Tables
import DocForms.Sheet.Reader

namespace DocForms.Sheet
open Text Layout

def Block.moved (place : Nat → Nat) (b : Block) : Block :=
  { b with line := place b.line, body := b.body.map (moveLine place) }

def Cut.moved (place : Nat → Nat) (c : Cut) : Cut :=
  { c with body := c.body.map (moveLine place), blocks := c.blocks.map (Block.moved place) }

/-- A draft whose headings have other places. -/
def Draft.moved (place : Nat → Nat) (d : Draft) : Draft :=
  { d with
    configLine := d.configLine.map place
    placed := d.placed.map fun p => (place p.1, p.2) }

section Moved
variable {place : Nat → Nat}

theorem cut_cons (l : Line) (ls : List Line) :
    cut (l :: ls) = (cut ls).addLine (l.1, LineKind.of l.2) := rfl

theorem cut_moved (place : Nat → Nat) (ls : List Line) :
    cut (ls.map (moveLine place)) = (cut ls).moved place := by
  induction ls with
  | nil => rfl
  | cons l ls ih =>
    rw [List.map_cons, cut_cons, cut_cons, ih, Cut.addLine, Cut.addLine]
    dsimp only [moveLine]
    cases LineKind.of l.2 <;> rfl

/-- The first line with content moves along. -/
theorem find_content_moved (place : Nat → Nat) (ls : List Line) :
    (ls.map (moveLine place)).find? (fun l => !isBlankLine l.2) =
      (ls.find? fun l => !isBlankLine l.2).map (moveLine place) := by
  rw [List.find?_map]
  rfl

theorem blocks_moves (ls : List Line) :
    Moves place (List.map (Block.moved place)) (blocksOf ls) (blocksOf (ls.map (moveLine place))) := by
  have hbody : (cut (ls.map (moveLine place))).body = (cut ls).body.map (moveLine place) := by
    rw [cut_moved]
    rfl
  rw [blocksOf, blocksOf, hbody, find_content_moved, cut_moved]
  cases (cut ls).body.find? fun l => !isBlankLine l.2 with
  | some l => exact .parse _ _
  | none => exact .ok _

variable (r : Registry)

theorem add_assignment_moves (legend : List (List Char)) (c : Context) (l : Line) :
    Moves place id (addAssignment r legend c l) (addAssignment r legend c (moveLine place l)) := by
  rw [addAssignment, addAssignment]
  refine .ite (.ok _) ?_
  dsimp only [moveLine]
  split
  · refine .ite (.parse _ _) (.ite (.parse _ _) ?_)
    exact .bind (.map_error _ _ _) fun v _ => .ok _
  · exact .parse _ _

theorem read_row_moves (columns : List Column) (row : Nat × List (List Char)) :
    Moves place id (readRow columns row) (readRow columns (moveRow place row)) :=
  .mapM_same (fun _ => .map_error _ _ _) _

theorem read_section_moves (hzero : place 0 = 0) (b : Block) (name : String) :
    Moves place id (readSection r b name) (readSection r (b.moved place) name) := by
  have hheader : (((b.moved place).body.find? fun l => !isBlankLine l.2).map Prod.fst).getD
      (b.moved place).line =
        place (((b.body.find? fun l => !isBlankLine l.2).map Prod.fst).getD b.line) := by
    rw [Block.moved, find_content_moved]
    cases b.body.find? fun l => !isBlankLine l.2 <;> rfl
  rw [readSection, readSection, hheader]
  refine (parse_moves hzero b.body).bind fun table _ => .ite (.parse _ _) ?_
  refine .bind (.map_error _ _ _) fun columns _ => ?_
  exact (Moves.mapM_id (read_row_moves columns) _).bind fun rows _ => .ok _

theorem add_config_moves (d : Draft) (b : Block) :
    Moves place (Draft.moved place) (d.addConfig r b) ((d.moved place).addConfig r (b.moved place)) := by
  have hset : (d.moved place).configLine.isSome = d.configLine.isSome := Option.isSome_map
  rw [Draft.addConfig, Draft.addConfig, hset]
  refine .ite (.parse _ _) ?_
  exact (Moves.foldlM (add_assignment_moves r b.legend) d.context).bind fun c _ => .ok _

theorem add_section_moves (hzero : place 0 = 0) (d : Draft) (b : Block) :
    Moves place (Draft.moved place) (d.addSection r b)
      ((d.moved place).addSection r (b.moved place)) := by
  have hplaced (name : String) : (d.moved place).placed.any (·.2.id == name) =
      d.placed.any (·.2.id == name) := List.any_map
  rw [Draft.addSection, Draft.addSection, hplaced]
  refine .ite (.parse _ _) ?_
  refine (read_section_moves r hzero b _).bind fun s _ => ?_
  have hmoved : ({ d.moved place with placed := (d.moved place).placed ++ [(place b.line, s)] } :
      Draft) = ({ d with placed := d.placed ++ [(b.line, s)] } : Draft).moved place := by
    simp [Draft.moved]
  exact congrArg Except.ok hmoved

theorem add_block_moves (hzero : place 0 = 0) (d : Draft) (b : Block) :
    Moves place (Draft.moved place) (d.addBlock r b) ((d.moved place).addBlock r (b.moved place)) :=
  .ite (add_config_moves r d b) (add_section_moves r hzero d b)

theorem line_of_eq (d : Draft) (x : Violation) :
    d.lineOf x = (headingLine? Prod.fst (·.2.id) d.placed x <|> d.configLine).getD 1 := rfl

/-- A broken rule is reported at the heading that moved, or at the first line if none is known. -/
theorem finish_moves (place : Nat → Nat) (d : Draft) :
    Moves place id d.finish (d.moved place).finish ∨
      ∃ x, d.finish = .error (.parse 1 (.violation x)) ∧ (d.moved place).finish = d.finish := by
  have hsections : (d.moved place).placed.map Prod.snd = d.placed.map Prod.snd := by
    rw [Draft.moved, List.map_map]
    rfl
  have hcontext : (d.moved place).context = d.context := rfl
  rw [Draft.finish, Draft.finish, hsections, hcontext]
  cases hviolations : (⟨d.context, d.placed.map Prod.snd⟩ : Document).violations with
  | nil => exact .inl (.check_read fun x rest h => by rw [h] at hviolations; cases hviolations)
  | cons x rest =>
    have hheading : headingLine? Prod.fst (·.2.id) (d.moved place).placed x =
        (headingLine? Prod.fst (·.2.id) d.placed x).map place :=
      heading_line_moved (fun p => (place p.1, p.2)) (fun _ => rfl) (fun _ => rfl) d.placed x
    have hline := blame_moved place (headingLine? Prod.fst (·.2.id) d.placed x) d.configLine
    rw [← hheading] at hline
    rcases hline with hmoves | ⟨hnone, hconfig⟩
    · refine .inl (.check_read fun y ys h => ?_)
      rw [hviolations] at h
      cases h
      exact hmoves
    · have hfirst : d.lineOf x = 1 := by
        rw [line_of_eq, hnone, hconfig]
        rfl
      have hmoved : (d.moved place).lineOf x = 1 := by
        rw [line_of_eq, hheading, hnone, Draft.moved, hconfig]
        rfl
      refine .inr ⟨x, ?_⟩
      rw [check_read_first hviolations, check_read_first hviolations, hfirst, hmoved]
      exact ⟨rfl, rfl⟩

end Moved

/-- A line whose first visible character is a number sign, and which is no legend. Unlike a blank line, it
does not part the records of a table. -/
def CommentLine (l : List Char) : Prop :=
  (trimStart l).head? = some '#' ∧ ¬legendStart <+: trim l

/-- A comment neither is a heading, whatever stands before it, nor has the start of a legend. -/
theorem comment_line_kind {l : List Char} (h : CommentLine l) : LineKind.of l = .comment := by
  obtain ⟨hfirst, hlegend⟩ := h
  obtain ⟨cs, hstart⟩ := List.head?_eq_some_iff.mp hfirst
  obtain ⟨rest, hrest⟩ := trim_end_cons (c := '#') (by decide) cs
  have hline : l.takeWhile isBlank ++ '#' :: cs = l := by
    rw [← hstart]
    exact List.takeWhile_append_dropWhile
  have hend : trimEnd l = l.takeWhile isBlank ++ '#' :: rest := by
    rw [← hrest, ← trim_end_append_cons (by decide), hline]
  have hblanks : ∀ c ∈ l.takeWhile isBlank, isBlank c = true :=
    List.all_eq_true.mp List.all_takeWhile
  have hheading : headingName? (trimEnd l) = none := by
    rw [hend]
    cases hfront : l.takeWhile isBlank with
    | nil => rfl
    | cons c front =>
      have hc : c ≠ '[' := by
        rintro rfl
        exact absurd (hblanks '[' (by simp [hfront])) (by decide)
      simp [headingName?, hc]
  have htrimmed : trimStart (trimEnd l) = '#' :: rest := by
    rw [hend, trimStart, List.dropWhile_append_of_pos hblanks]
    rfl
  rw [trim, hstart, hrest] at hlegend
  have hnot : dropStart? legendStart ('#' :: rest) = none :=
    if_neg fun hlist => hlegend (List.isPrefixOf_iff_prefix.mp hlist)
  simp only [LineKind.of, hheading, htrimmed, List.head?_cons, if_true, hnot]

theorem cut_without_comments (ls : List Line) :
    cut (ls.filter fun l => decide (LineKind.of l.2 ≠ .comment)) = cut ls := by
  induction ls with
  | nil => rfl
  | cons l ls ih =>
    by_cases hl : LineKind.of l.2 = .comment
    · rw [List.filter_cons_of_neg (by simpa using hl), ih, cut_cons, Cut.addLine, hl]
    · rw [List.filter_cons_of_pos (by simpa using hl), cut_cons, cut_cons, ih]

/-- What is read of a sheet before its rules are checked. -/
def readDraft (r : Registry) (text : String) : Except Failure Draft :=
  blocksOf (numbered (lines text.toList)) >>= fun blocks => blocks.foldlM (Draft.addBlock r) {}

theorem read_eq (r : Registry) (text : String) : read r text = readDraft r text >>= Draft.finish := by
  rw [readDraft, bind_assoc]
  rfl

/-- Comments among the lines of a sheet move its lines, and nothing else: they are gone before blank lines
are counted. -/
theorem read_among_comments (r : Registry) {i : Insertion} {text text' : String} (hi : i.Of CommentLine)
    (hinto : i.Into text text') :
    read r text' = (read r text).mapError (Failure.moved i.place) ∨
      ∃ x, read r text = .error (.parse 1 (.violation x)) ∧ read r text' = read r text := by
  -- Without their comments, both texts have the same lines.
  have hlines := Insertion.filter_text hinto hi (fun l => decide (LineKind.of l ≠ .comment))
    fun l hl => by simpa using comment_line_kind hl
  have hblocks : Moves i.place (List.map (Block.moved i.place)) (blocksOf (numbered (lines text.toList)))
      (blocksOf (numbered (lines text'.toList))) := by
    have hcut (ls : List Line) :
        blocksOf (ls.filter fun l => decide (LineKind.of l.2 ≠ .comment)) = blocksOf ls := by
      rw [blocksOf, blocksOf, cut_without_comments]
    rw [← hcut (numbered (lines text'.toList)), hlines, ← hcut (numbered (lines text.toList))]
    exact blocks_moves _
  have hdraft : Moves i.place (Draft.moved i.place) (readDraft r text) (readDraft r text') :=
    hblocks.bind fun blocks _ => .foldlM (add_block_moves r i.place_zero) {}
  rw [read_eq, read_eq]
  cases hread : readDraft r text with
  | error e =>
    rw [hread] at hdraft
    exact .inl (congrArg (· >>= Draft.finish) hdraft)
  | ok d =>
    rw [hread] at hdraft
    have hmoved : readDraft r text' = .ok (d.moved i.place) := hdraft
    rw [hmoved]
    exact (finish_moves i.place d).imp_left fun hfinish => by rwa [Moves, Except.map_id] at hfinish

/-- Blanks at the ends of lines are not looked at. -/
theorem read_trailed (r : Registry) {text text' : String}
    (h : List.Forall₂ Trailed (lines text.toList) (lines text'.toList)) : read r text' = read r text := by
  have hkind (l m : List Char) (hlm : Trailed l m) : LineKind.of m = LineKind.of l := by
    rw [LineKind.of, LineKind.of, hlm.trim_end]
  have hcut : cut (numbered (lines text'.toList)) = cut (numbered (lines text.toList)) := by
    rw [cut, cut, numbered_alike hkind h]
  rw [read, read, readLines, readLines, blocksOf, blocksOf, hcut]

end DocForms.Sheet
