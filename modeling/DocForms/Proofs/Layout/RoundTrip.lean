import DocForms.Proofs.Layout.Records

namespace DocForms.Layout
open Text

/-- Tables whose cells all fill their places. -/
structure Fills (headings : List Heading) (rows : List (List (List Char))) : Prop where
  columns : headings ≠ []
  titles : ∀ h ∈ headings, Cell h.text
  width : ∀ row ∈ rows, row.length = headings.length
  cells : ∀ row ∈ rows, ∀ s ∈ row, Cell s

/-- A line of a table: some of the cells of a row or of the headings, after what blanks there are. -/
def TableLine (all : List (List (List Char))) (l : List Char) : Prop :=
  ∃ k t cells, l = List.replicate k ' ' ++ t ∧ Spaced cells t ∧ ∃ row ∈ all, ∀ s ∈ cells, s ∈ row

theorem TableLine.not_blank {all : List (List (List Char))} {l : List Char}
    (h : TableLine all l) : isBlankLine l = false := by
  obtain ⟨k, t, cells, rfl, hspaced, _⟩ := h
  obtain ⟨c, cs, rfl, hc⟩ := hspaced.bounded.first
  simp [isBlankLine, hc]

theorem mem_stack {α : Type} {x : α} {sep : List α} {parts : List (List α)}
    (h : x ∈ stack sep parts) : x ∈ sep ∨ ∃ part ∈ parts, x ∈ part := by
  induction parts with
  | nil => simp [stack] at h
  | cons p rest ih =>
    cases rest with
    | nil =>
      rw [stack_single] at h
      exact .inr ⟨p, by simp, h⟩
    | cons q rest =>
      rw [stack_cons_cons, List.mem_append, List.mem_append] at h
      rcases h with (hp | hsep) | hrest
      · exact .inr ⟨p, by simp, hp⟩
      · exact .inl hsep
      · rcases ih hrest with hsep | ⟨part, hpart, hx⟩
        · exact .inl hsep
        · exact .inr ⟨part, List.mem_cons_of_mem _ hpart, hx⟩

theorem part_mem_stack {α : Type} {x : α} {sep part : List α} {parts : List (List α)}
    (hpart : part ∈ parts) (hx : x ∈ part) : x ∈ stack sep parts := by
  induction parts with
  | nil => cases hpart
  | cons p rest ih =>
    cases rest with
    | nil =>
      obtain rfl := List.mem_singleton.mp hpart
      rwa [stack_single]
    | cons q rest =>
      rw [stack_cons_cons, List.mem_append, List.mem_append]
      rcases List.mem_cons.mp hpart with rfl | hpart
      · exact .inl (.inl hx)
      · exact .inr (ih hpart)

section
variable {o : Options} {headings : List Heading} {rows : List (List (List Char))}

theorem columns_length : (columnsOf headings rows).length = headings.length := by
  simp [columnsOf, columnWidths]

theorem Fills.all (h : Fills headings rows) :
    ∀ row ∈ headings.map Heading.text :: rows,
      row.length = headings.length ∧ ∀ s ∈ row, Cell s := by
  intro row hrow
  rcases List.mem_cons.mp hrow with rfl | hrow
  · refine ⟨List.length_map _, ?_⟩
    intro s hs
    obtain ⟨heading, hheading, rfl⟩ := List.mem_map.mp hs
    exact h.titles heading hheading
  · exact ⟨h.width row hrow, h.cells row hrow⟩

theorem Fills.line (h : Fills headings rows) (hgap : 2 ≤ o.columnGap) {groups : List (Nat × Nat)}
    (hcover : Covers 0 groups headings.length) {g : Nat × Nat} (hg : g ∈ groups)
    {row : List (List Char)} (hrow : row ∈ headings.map Heading.text :: rows) :
    ∃ k t, groupLine o (columnsOf headings rows) g row = List.replicate k ' ' ++ t ∧
      Spaced (slice g row) t := by
  obtain ⟨hlength, hcells⟩ := h.all row hrow
  exact group_line_spaced hgap (hlength.trans columns_length.symm) hcells (hlength ▸ hcover) hg

theorem Fills.lined (h : Fills headings rows) (hgap : 2 ≤ o.columnGap) {groups : List (Nat × Nat)}
    (hcover : Covers 0 groups headings.length) {chunk : List (List (List Char))}
    (hchunk : ∀ row ∈ chunk, row ∈ rows) :
    Lined groups headings.length (groupLine o (columnsOf headings rows))
      (headings.map Heading.text :: chunk) := by
  have hsub : ∀ row ∈ headings.map Heading.text :: chunk,
      row ∈ headings.map Heading.text :: rows := by
    intro row hrow
    rcases List.mem_cons.mp hrow with rfl | hrow
    · simp
    · exact List.mem_cons_of_mem _ (hchunk row hrow)
  refine ⟨hcover, fun row hrow => (h.all row (hsub row hrow)).1, ?_⟩
  intro g hg row hrow
  obtain ⟨k, t, hline, hspaced⟩ := h.line (o := o) hgap hcover hg (hsub row hrow)
  rw [hline, hspaced.split]

theorem Fills.table_line (h : Fills headings rows) (hgap : 2 ≤ o.columnGap)
    {groups : List (Nat × Nat)} (hcover : Covers 0 groups headings.length) {g : Nat × Nat}
    (hg : g ∈ groups) {row : List (List Char)} (hrow : row ∈ headings.map Heading.text :: rows) :
    TableLine (headings.map Heading.text :: rows) (groupLine o (columnsOf headings rows) g row) := by
  obtain ⟨k, t, hline, hspaced⟩ := h.line (o := o) hgap hcover hg hrow
  exact ⟨k, t, _, hline, hspaced, row, hrow, fun s hs => mem_of_mem_slice hs⟩

/-- A line is empty or shows the headings or a row in a group of columns. -/
theorem mem_render (hne : headings ≠ []) {l : List Char} (hl : l ∈ render o headings rows) :
    l = [] ∨ ∃ g ∈ groupsOf o headings rows, ∃ row ∈ headings.map Heading.text :: rows,
      l = groupLine o (columnsOf headings rows) g row := by
  rw [render_records o hne rows] at hl
  rcases mem_stack hl with hl | ⟨part, hpart, hl⟩
  · exact .inl (by simpa using hl)
  obtain ⟨chunk, hchunk, rfl⟩ := List.mem_map.mp hpart
  rcases mem_stack hl with hl | ⟨part, hpart, hl⟩
  · exact .inl (by simpa using hl)
  obtain ⟨g, hg, rfl⟩ := List.mem_map.mp hpart
  refine .inr ⟨g, hg, ?_⟩
  rcases List.mem_cons.mp hl with rfl | hl
  · exact ⟨_, by simp, rfl⟩
  · obtain ⟨row, hrow, rfl⟩ := List.mem_map.mp hl
    have hmem : row ∈ rows := by
      rw [← record_rows_flatten (groupsOf o headings rows) rows]
      exact List.mem_flatten_of_mem hchunk hrow
    exact ⟨row, List.mem_cons_of_mem _ hmem, rfl⟩

/-- The headings and every row stand on a line of each group of columns. -/
theorem group_line_mem_render (hne : headings ≠ []) {g : Nat × Nat}
    (hg : g ∈ groupsOf o headings rows) {row : List (List Char)}
    (hrow : row ∈ headings.map Heading.text :: rows) :
    groupLine o (columnsOf headings rows) g row ∈ render o headings rows := by
  have hrecord {chunk : List (List (List Char))}
      (hchunk : chunk ∈ recordRows (groupsOf o headings rows) rows)
      (hmem : row ∈ headings.map Heading.text :: chunk) :
      groupLine o (columnsOf headings rows) g row ∈ render o headings rows := by
    rw [render_records o hne rows]
    refine part_mem_stack (List.mem_map_of_mem hchunk) ?_
    refine part_mem_stack (List.mem_map_of_mem hg) ?_
    exact List.mem_map_of_mem (f := groupLine o (columnsOf headings rows) g) hmem
  rcases List.mem_cons.mp hrow with rfl | hrow
  · obtain ⟨chunk, hchunk⟩ :=
      List.exists_mem_of_ne_nil _ (record_rows_ne_nil (groupsOf o headings rows) rows)
    exact hrecord hchunk (by simp)
  · rw [← record_rows_flatten (groupsOf o headings rows) rows] at hrow
    obtain ⟨chunk, hchunk, hmem⟩ := List.mem_flatten.mp hrow
    exact hrecord hchunk (List.mem_cons_of_mem _ hmem)

/-- Every line of a table is empty or shows cells. -/
theorem render_lines (hgap : 2 ≤ o.columnGap) (h : Fills headings rows) :
    ∀ l ∈ render o headings rows, l = [] ∨ TableLine (headings.map Heading.text :: rows) l := by
  intro l hl
  rcases mem_render h.columns hl with rfl | ⟨g, hg, row, hrow, rfl⟩
  · exact .inl rfl
  · exact .inr (h.table_line hgap (groups_cover o headings rows) hg hrow)

/-- The records of a table, as texts. -/
def recordsOf (line : Nat × Nat → List (List Char) → List Char) (titles : List (List Char))
    (groups : List (Nat × Nat)) (chunks : List (List (List (List Char)))) :
    List (List ParagraphText) :=
  chunks.map fun chunk => groups.map fun g => (line g titles, chunk.map (line g))

theorem records_lines (line : Nat × Nat → List (List Char) → List Char)
    (titles : List (List Char)) (groups : List (Nat × Nat))
    (chunks : List (List (List (List Char)))) :
    chunks.map (fun chunk => stack [[]] (groups.map (paragraphLines line titles chunk))) =
      (recordsOf line titles groups chunks).map recordLines := by
  rw [recordsOf, List.map_map]
  apply List.map_congr_left
  intro chunk _
  rw [Function.comp_apply, recordLines, List.map_map]
  rfl

theorem add_records {line : Nat × Nat → List (List Char) → List Char} {titles : List (List Char)}
    {groups : List (Nat × Nat)} {width : Nat} (hne : groups ≠ [])
    {chunks : List (List (List (List Char)))}
    (h : ∀ chunk ∈ chunks, Lined groups width line (titles :: chunk)) {rs : List Record}
    (hrs : rs.map (List.map Paragraph.texts) = recordsOf line titles groups chunks) {t : Table}
    {done : List (List (List Char))} (ht : t.Holds titles done) :
    ∃ t', rs.foldlM addRecord t = .ok t' ∧ t'.Holds titles (done ++ chunks.flatten) := by
  induction chunks generalizing rs t done with
  | nil =>
    rw [List.map_eq_nil_iff.mp hrs]
    exact ⟨t, rfl, by simpa using ht⟩
  | cons chunk chunks ih =>
    obtain ⟨r, rs, rfl, hr, hrs⟩ := List.map_eq_cons_iff.mp hrs
    obtain ⟨below, hread, hbelow⟩ := read_record (h chunk (by simp)) hne hr
    have hnext : Table.Holds ⟨t.header, t.rows ++ below.rows⟩ titles (done ++ chunk) :=
      ⟨ht.header, by rw [List.map_append, ht.rows, hbelow.rows]⟩
    obtain ⟨t', hfold, ht'⟩ := ih (fun c hc => h c (List.mem_cons_of_mem _ hc)) hrs hnext
    refine ⟨t', ?_, by simpa using ht'⟩
    rw [List.foldlM_cons, addRecord, hread, ok_bind, if_pos (hbelow.header.trans ht.header.symm)]
    exact hfold

/-- The records of a table have lines, and none of these is blank. -/
theorem Fills.records (h : Fills headings rows) (hgap : 2 ≤ o.columnGap) {groups : List (Nat × Nat)}
    (hcover : Covers 0 groups headings.length) (hgroups : groups ≠ [])
    {chunks : List (List (List (List Char)))} (hflat : chunks.flatten = rows) :
    ∀ x ∈ recordsOf (groupLine o (columnsOf headings rows)) (headings.map Heading.text) groups chunks,
      x ≠ [] ∧ ∀ p ∈ x, NoBlanks p := by
  intro x hx
  obtain ⟨c, hc, rfl⟩ := List.mem_map.mp hx
  refine ⟨by simpa using hgroups, ?_⟩
  intro p hp
  obtain ⟨g, hg, rfl⟩ := List.mem_map.mp hp
  have hmem : ∀ row ∈ c, row ∈ headings.map Heading.text :: rows := by
    intro row hrow
    rw [← hflat]
    exact List.mem_cons_of_mem _ (List.mem_flatten_of_mem hc hrow)
  intro t ht
  rcases List.mem_cons.mp ht with rfl | ht
  · exact (h.table_line hgap hcover hg (by simp)).not_blank
  · obtain ⟨row, hrow, rfl⟩ := List.mem_map.mp ht
    exact (h.table_line hgap hcover hg (hmem row hrow)).not_blank

/-- A table is read back from its lines and what empty lines follow them. -/
theorem parse_render (hgap : 2 ≤ o.columnGap) (h : Fills headings rows) {ls : List Line}
    {tail : List (List Char)} (htail : ∀ t ∈ tail, t = [])
    (hls : ls.map Prod.snd = render o headings rows ++ tail) :
    ∃ t, parse ls = .ok t ∧ t.Holds (headings.map Heading.text) rows := by
  have hcover := groups_cover o headings rows
  have hgroups := groups_ne_nil o h.columns rows
  have hflat := record_rows_flatten (groupsOf o headings rows) rows
  have hrender := render_records o h.columns rows
  obtain ⟨chunk, chunks, hchunks⟩ :=
    List.exists_cons_of_ne_nil (record_rows_ne_nil (groupsOf o headings rows) rows)
  rw [hchunks] at hflat hrender
  generalize groupsOf o headings rows = groups at hcover hgroups hrender
  have hlined : ∀ c ∈ chunk :: chunks, Lined groups headings.length
      (groupLine o (columnsOf headings rows)) (headings.map Heading.text :: c) := by
    intro c hc
    apply h.lined hgap hcover
    intro row hrow
    rw [← hflat]
    exact List.mem_flatten_of_mem hc hrow
  have hnoBlanks := h.records hgap hcover hgroups hflat
  rw [hrender, records_lines] at hls
  have hrecords := shows_stack hnoBlanks htail ls hls
  obtain ⟨r, rs, hcut, hr, hrs⟩ := List.map_eq_cons_iff.mp hrecords
  obtain ⟨t, hread, ht⟩ := read_record (hlined chunk (by simp)) hgroups hr
  obtain ⟨t', hfold, ht'⟩ :=
    add_records hgroups (fun c hc => hlined c (List.mem_cons_of_mem _ hc)) hrs ht
  refine ⟨t', ?_, ht'.header, by rw [ht'.rows, ← hflat, List.flatten_cons]⟩
  rw [parse, hcut]
  simp only [hread, ok_bind, hfold]

end

/-- A table with a column that is wider than twelve characters. -/
def siteHeadings : List Heading :=
  [⟨"host".toList, .left⟩, ⟨"port".toList, .right⟩, ⟨"path".toList, .left⟩]

def siteRows : List (List (List Char)) :=
  [["web".toList, "8080".toList, "/srv/site/www".toList],
    ["\"a  b\"".toList, "1".toList, "/".toList]]

end DocForms.Layout
