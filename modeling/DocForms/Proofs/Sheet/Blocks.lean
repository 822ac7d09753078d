import DocForms.Proofs.Document.Fields
import DocForms.Proofs.Sheet.Tables

namespace DocForms.Sheet
open Text Layout

/-- A line that shows something other than a heading or a comment. -/
theorem content_kind {t : List Char} (hbounded : Bounded t)
    (hfirst : ∀ c cs, t = c :: cs → c ≠ '#' ∧ (c = '[' → ∃ rest, cs = ']' :: rest)) (k : Nat) :
    LineKind.of (List.replicate k ' ' ++ t) = .content (List.replicate k ' ' ++ t) := by
  have hend : trimEnd (List.replicate k ' ' ++ t) = List.replicate k ' ' ++ t := by
    have := trim_end_blanks hbounded k 0
    rwa [List.replicate_zero, List.append_nil] at this
  have hstart : trimStart (List.replicate k ' ' ++ t) = t := trim_start_blanks hbounded k
  obtain ⟨c, cs, rfl, _⟩ := hbounded.first
  obtain ⟨hhash, hbracket⟩ := hfirst c cs rfl
  have hheading : headingName? (List.replicate k ' ' ++ c :: cs) = none := by
    cases k with
    | succ k => rfl
    | zero =>
      by_cases hc : c = '['
      · obtain ⟨rest, rfl⟩ := hbracket hc
        subst hc
        rw [List.replicate_zero, List.nil_append, headingName?, dropLast?]
        split
        · cases rest with
          | nil => rfl
          | cons d ds => rfl
        · rfl
      · unfold headingName?
        split
        · rename_i heq
          cases heq
          exact absurd rfl hc
        · rfl
  have hhead : (c :: cs).head? ≠ some '#' := by simpa using hhash
  simp only [LineKind.of, hend, hheading, hstart, if_neg hhead]

theorem blank_kind : LineKind.of [] = .content [] := rfl

/-- What begins like a value begins like the content of a line. -/
theorem CellText.first_append {s : List Char} (h : CellText s) (t : List Char) :
    ∀ c cs, s ++ t = c :: cs → c ≠ '#' ∧ (c = '[' → ∃ rest, cs = ']' :: rest) := by
  obtain ⟨x, xs, rfl, _⟩ := h.bounded.first
  obtain ⟨hhash, hbracket⟩ := h.first x xs rfl
  intro c cs hcs
  cases hcs
  exact ⟨hhash, fun hc => ⟨t, by rw [hbracket hc]; rfl⟩⟩

theorem spaced_first {cells : List (List Char)} {t : List Char} (h : Spaced cells t) :
    ∃ s ∈ cells, ∃ rest, t = s ++ rest := by
  cases h with
  | last => exact ⟨t, by simp, [], by simp⟩
  | @cons s _ cells k => exact ⟨s, by simp, _, List.append_assoc _ _ _⟩

theorem spaced_no_control {cells : List (List Char)} {t : List Char} (h : Spaced cells t)
    (hcells : ∀ s ∈ cells, NoControl s) : NoControl t := by
  induction h with
  | last => exact hcells _ (by simp)
  | cons k _ _ ih =>
    apply ((hcells _ (by simp)).append _).append
    · exact ih fun s hs => hcells s (List.mem_cons_of_mem _ hs)
    · intro c hc
      rw [(List.mem_replicate.mp hc).2]
      decide

/-- The lines of a table of cells are content, and stay on their lines. -/
theorem table_line_kind {all : List (List (List Char))} (hall : ∀ row ∈ all, ∀ s ∈ row, CellText s)
    {l : List Char} (h : TableLine all l) : LineKind.of l = .content l ∧ NoControl l := by
  obtain ⟨k, t, cells, rfl, hspaced, row, hrow, hcells⟩ := h
  have htexts : ∀ s ∈ cells, CellText s := fun s hs => hall row hrow s (hcells s hs)
  constructor
  · obtain ⟨s, hs, rest, rfl⟩ := spaced_first hspaced
    exact content_kind hspaced.bounded ((htexts s hs).first_append rest) k
  · apply NoControl.append _ (spaced_no_control hspaced fun s hs => (htexts s hs).noControl)
    intro c hc
    rw [(List.mem_replicate.mp hc).2]
    decide

/-- The headings and rows of a section's table. -/
def headingsOf (r : Registry) (s : Section) : List Heading :=
  s.columns.map fun c => headingOf c (showName r (s.columns.map Column.name) c.name)

theorem headings_eq (r : Registry) (s : Section) :
    s.columns.zipWith headingOf (showNames r (s.columns.map Column.name)) = headingsOf r s := by
  rw [showNames, List.map_map, List.zipWith_map_right, List.zipWith_self]
  rfl

theorem heading_cells {r : Registry} {s : Section} (hs : s.Lawful) :
    ∀ h ∈ headingsOf r s, CellText h.text := by
  intro h hh
  obtain ⟨c, hc, rfl⟩ := List.mem_map.mp hh
  exact heading_text (show_name_is_name (hs.columnsNamed c hc))

theorem row_cell_texts {s : Section} (hs : s.Lawful) :
    ∀ row ∈ tableRows s, row.length = s.columns.length ∧ ∀ t ∈ row, CellText t := by
  obtain ⟨cells, htable, hcells⟩ := table_rows hs
  intro row hrow
  rw [htable] at hrow
  obtain ⟨i, hi, rfl⟩ := List.mem_map.mp hrow
  have hrowCells := hcells i (List.mem_range.mp hi)
  exact ⟨hrowCells.length, hrowCells.texts⟩

theorem CellText.cell {s : List Char} (h : CellText s) : Cell s :=
  ⟨h.bounded, h.oneCell⟩

theorem columns_ne_nil {s : Section} (hs : s.Lawful) : s.columns ≠ [] := by
  intro hnil
  apply hs.stored
  simp [Section.storedWidth, Section.storedColumns, hnil]

theorem section_fills {r : Registry} {s : Section} (hs : s.Lawful) :
    Fills (headingsOf r s) (tableRows s) := by
  refine ⟨by simpa [headingsOf] using columns_ne_nil hs, ?_, ?_, ?_⟩
  · exact fun h hh => (heading_cells hs h hh).cell
  · intro row hrow
    rw [(row_cell_texts hs row hrow).1, headingsOf, List.length_map]
  · exact fun row hrow t ht => ((row_cell_texts hs row hrow).2 t ht).cell

theorem section_lines_kind {r : Registry} {s : Section} (hs : s.Lawful) {o : Options}
    (hgap : 2 ≤ o.columnGap) : ∀ l ∈ render o (headingsOf r s) (tableRows s),
      LineKind.of l = .content l ∧ NoControl l := by
  intro l hl
  rcases render_lines hgap (section_fills hs) l hl with rfl | htable
  · exact ⟨blank_kind, by simp [NoControl]⟩
  · apply table_line_kind _ htable
    intro row hrow t ht
    rcases List.mem_cons.mp hrow with rfl | hrow
    · obtain ⟨h, hh, rfl⟩ := List.mem_map.mp ht
      exact heading_cells hs h hh
    · exact (row_cell_texts hs row hrow).2 t ht

/-- A section is read back from its table, and what empty lines follow it. -/
theorem read_section {r : Registry} {s : Section} (hs : s.Lawful) {o : Options}
    (hgap : 2 ≤ o.columnGap) {b : Block} {heading? : Option ShownName}
    (hlegend : b.legend =
      legendEntries heading? (showNames r (s.columns.map Column.name)))
    {tail : List (List Char)} (htail : ∀ t ∈ tail, t = [])
    (hbody : b.body.map Prod.snd = render o (headingsOf r s) (tableRows s) ++ tail) :
    readSection r b s.id = .ok s := by
  obtain ⟨t, hparse, hheader, hrows⟩ := parse_render hgap (section_fills hs) htail hbody
  have hne : t.header ≠ [] := by
    rw [hheader, headingsOf]
    simpa using columns_ne_nil hs
  have hcolumns : t.header.mapM (readHeading r b.legend) = .ok s.columns := by
    rw [hheader, headingsOf, List.map_map]
    apply mapM_read
    intro c hc
    apply read_heading (show_name_is_name (hs.columnsNamed c hc))
    rw [hlegend]
    apply name_meant _ (List.mem_map_of_mem hc)
    intro n hn
    obtain ⟨c', hc', rfl⟩ := List.mem_map.mp hn
    exact hs.columnsNamed c' hc'
  rw [readSection, hparse, ok_bind]
  simp only [List.isEmpty_eq_false_iff.mpr hne, hcolumns, map_error_ok, ok_bind,
    read_rows hs hrows]
  rfl

/-- The line of an assignment. -/
def assignmentLine (width : Nat) (n : ShownName) (v : Value) : List Char :=
  pad .left width n.text.toList ++ " = ".toList ++ valueText false v

theorem assignment_split (width : Nat) {n : ShownName} (hn : isName n.text = true) (v : Value) :
    ∃ k, assignmentLine width n v =
      (n.text.toList ++ List.replicate k ' ') ++ '=' :: ' ' :: valueText false v ∧
      '=' ∉ n.text.toList ++ List.replicate k ' ' := by
  have hword : Word n.text.toList := name_is_word hn
  refine ⟨width - n.text.toList.length + 1, ?_, ?_⟩
  · simp [assignmentLine, pad, List.replicate_succ']
  · rw [List.mem_append, not_or]
    refine ⟨hword.not_mem (by decide), ?_⟩
    intro h
    cases (List.mem_replicate.mp h).2

theorem assignment_kind {width : Nat} {n : ShownName} (hn : isName n.text = true) {v : Value}
    (hv : v.Lawful none) : Bounded (assignmentLine width n v) ∧
      LineKind.of (assignmentLine width n v) = .content (assignmentLine width n v) ∧
      NoControl (assignmentLine width n v) := by
  have hvalue := (context_text hv).1
  have hname := name_text hn
  obtain ⟨k, hline, _⟩ := assignment_split width hn v
  have hsplit : assignmentLine width n v =
      n.text.toList ++ (List.replicate k ' ' ++ ['=', ' ']) ++ valueText false v := by
    rw [hline]
    simp
  have hblanks : NoControl (List.replicate k ' ' ++ ['=', ' ']) := by
    apply NoControl.append _ (by unfold NoControl; decide)
    intro c hc
    rw [(List.mem_replicate.mp hc).2]
    decide
  have hbounded : Bounded (assignmentLine width n v) := by
    rw [hsplit]
    exact hname.bounded.append hvalue.bounded _
  refine ⟨hbounded, ?_, ?_⟩
  · apply content_kind hbounded _ 0
    rw [hsplit, List.append_assoc]
    exact hname.first_append _
  · rw [hsplit]
    exact (hname.noControl.append hblanks).append hvalue.noControl

theorem add_assignment {r : Registry} {keys : List String} (hkeys : ∀ k ∈ keys, isName k = true)
    {width n : Nat} {key : String} (hkey : key ∈ keys) {v : Value} (hv : v.Lawful none)
    {c : Context} (hnew : key ∉ c.keys) :
    addAssignment r (legendEntries none (showNames r keys)) c
      (n, assignmentLine width (showName r keys key) v) = .ok (c.insert key v) := by
  have hshown : isName (showName r keys key).text = true := show_name_is_name (hkeys key hkey)
  obtain ⟨k, hline, hequals⟩ := assignment_split width hshown v
  obtain ⟨hvalue, hread⟩ := context_text hv
  have hleft : trim ((showName r keys key).text.toList ++ List.replicate k ' ') =
      (showName r keys key).text.toList := by
    have hbounded := (name_text hshown).bounded
    have hend := trim_end_blanks hbounded 0 k
    obtain ⟨x, xs, hx, hb⟩ := hbounded.first
    rw [List.replicate_zero, List.nil_append] at hend
    have hstart : trimStart ((showName r keys key).text.toList ++ List.replicate k ' ') =
        (showName r keys key).text.toList ++ List.replicate k ' ' := by
      simp [hx, trimStart, hb]
    rw [trim, hstart, hend]
  have hname : isName key = true := hkeys key hkey
  rw [addAssignment, if_neg (by simp [not_blank_line (assignment_kind hshown hv).1])]
  simp only [hline, split_once_append hequals, hleft, name_meant hkeys hkey, hname,
    Fields.contains_eq_false hnew, trim_space hvalue.bounded, hread]
  rfl

/-- The context is read back from its assignments, and what empty lines follow them. -/
theorem read_assignments {r : Registry} {c : Context}
    (hc : ∀ e ∈ c.entries, isName e.1 = true ∧ e.2.Lawful none) {width : Nat}
    {body : List Line}
    (hbody : body.map Prod.snd =
      c.entries.map fun e => assignmentLine width (showName r c.keys e.1) e.2) :
    body.foldlM (addAssignment r (legendEntries none (showNames r c.keys))) ∅ = .ok c := by
  have hkeys : ∀ k ∈ c.keys, isName k = true := by
    intro k hk
    obtain ⟨e, he, rfl⟩ := List.mem_map.mp hk
    exact (hc e he).1
  have hstep : ∀ before e after, [] ++ c.entries = before ++ e :: after →
      ∀ (s : Context) (l : Line), s.entries = before →
        l.2 = assignmentLine width (showName r c.keys e.1) e.2 →
        ∃ s' : Context, addAssignment r (legendEntries none (showNames r c.keys)) s l = .ok s' ∧
          s'.entries = before ++ [e] := by
    rintro before e after hsplit s ⟨n, text⟩ hs rfl
    rw [List.nil_append] at hsplit
    have hmem : e ∈ c.entries := by simp [hsplit]
    have hnew : e.1 ∉ s.keys := by
      apply Fields.new_key (g := c)
      rw [hs]
      exact hsplit
    exact ⟨s.insert e.1 e.2, add_assignment hkeys (List.mem_map_of_mem hmem) (hc e hmem).2 hnew,
      by rw [Fields.insert_entries hnew, hs]⟩
  obtain ⟨c', hfold, hentries⟩ := foldlM_collects hbody hstep (s := (∅ : Context)) rfl
  rw [hfold, Fields.eq_of_entries hentries]

theorem add_blank_assignments {r : Registry} {legend : List (List Char)} {c : Context}
    {body : List Line} (h : ∀ l ∈ body, l.2 = []) :
    body.foldlM (addAssignment r legend) c = .ok c := by
  induction body with
  | nil => rfl
  | cons l rest ih =>
    have hl : l.2 = [] := h l (by simp)
    have hblank : isBlankLine [] = true := rfl
    rw [List.foldlM_cons, addAssignment, hl, hblank, if_pos rfl]
    exact ih fun m hm => h m (List.mem_cons_of_mem _ hm)

end DocForms.Sheet
