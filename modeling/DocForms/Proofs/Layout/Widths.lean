import DocForms.Proofs.Layout.RoundTrip
import Mathlib.Data.List.Infix

namespace DocForms.Layout
open Text

/-- The characters that a range of columns takes, gaps included. -/
def rangeWidth (o : Options) (widths : List Nat) (g : Nat × Nat) : Nat :=
  (slice g widths).sum + o.columnGap * (g.2 - g.1 - 1)

/-- The first column of the second range does not fit the line of the first. -/
def Crowded (o : Options) (widths : List Nat) (g h : Nat × Nat) : Prop :=
  ∃ w, widths[h.1]? = some w ∧ o.maxLineWidth < rangeWidth o widths g + o.columnGap + w

theorem slice_at {α : Type} (g : Nat × Nat) (xs : List α) (k : Nat) :
    (slice g xs)[k]? = if k < g.2 - g.1 then xs[g.1 + k]? else none := by
  rw [slice, List.getElem?_take, List.getElem?_drop]

theorem slice_next {α : Type} {start stop : Nat} {xs : List α} {x : α} (h : start ≤ stop)
    (hx : xs[stop]? = some x) : slice (start, stop + 1) xs = slice (start, stop) xs ++ [x] := by
  have hsub : stop + 1 - start = stop - start + 1 := by omega
  have hlast : (xs.drop start)[stop - start]? = some x := by
    rw [List.getElem?_drop, Nat.add_sub_cancel' h, hx]
  rw [slice, slice, hsub, List.take_add_one, hlast]
  rfl

theorem slice_one {α : Type} {start : Nat} {xs : List α} {x : α} (hx : xs[start]? = some x) :
    slice (start, start + 1) xs = [x] := by
  rw [slice_next (Nat.le_refl start) hx, slice]
  simp

/-- A further column takes a gap and its own width. -/
theorem range_width_next {o : Options} {widths : List Nat} {start stop w : Nat} (h : start < stop)
    (hw : widths[stop]? = some w) :
    rangeWidth o widths (start, stop + 1) = rangeWidth o widths (start, stop) + o.columnGap + w := by
  obtain ⟨n, rfl⟩ := Nat.exists_eq_add_of_lt h
  have hmore : start + n + 1 + 1 - start - 1 = n + 1 := by omega
  have hless : start + n + 1 - start - 1 = n := by omega
  simp only [rangeWidth, slice_next (Nat.le_of_lt h) hw, hmore, hless, List.sum_append,
    List.sum_singleton, Nat.mul_succ]
  omega

theorem range_width_one {o : Options} {widths : List Nat} {start w : Nat}
    (hw : widths[start]? = some w) : rangeWidth o widths (start, start + 1) = w := by
  simp [rangeWidth, slice_one hw]

/-- While groups are filled: the group at hand takes the `count` columns from `start` on, and fits the line
if it has several; the columns `rest` are still to be placed. -/
structure Filling (o : Options) (widths : List Nat) (start used count : Nat) (rest : List Nat) :
    Prop where
  left : widths.drop (start + count) = rest
  nonempty : 0 < count
  width : rangeWidth o widths (start, start + count) = used
  fits : 2 ≤ count → used ≤ o.maxLineWidth

section Fill
variable {o : Options} {widths : List Nat} {start used count w : Nat} {ws : List Nat}

theorem Filling.next_width (h : Filling o widths start used count (w :: ws)) :
    widths[start + count]? = some w := by
  rw [← List.head?_drop, h.left]
  rfl

theorem Filling.drop_next (h : Filling o widths start used count (w :: ws)) :
    widths.drop (start + count + 1) = ws := by
  rw [← List.tail_drop, h.left]
  rfl

/-- The group at hand takes the next column. -/
theorem Filling.take (h : Filling o widths start used count (w :: ws))
    (hfits : used + o.columnGap + w ≤ o.maxLineWidth) :
    Filling o widths start (used + o.columnGap + w) (count + 1) ws := by
  refine ⟨h.drop_next, Nat.succ_pos count, ?_, fun _ => hfits⟩
  rw [← Nat.add_assoc, range_width_next (Nat.lt_add_of_pos_right h.nonempty) h.next_width, h.width]

/-- The next column begins a group. -/
theorem Filling.begin (h : Filling o widths start used count (w :: ws)) :
    Filling o widths (start + count) w 1 ws :=
  ⟨h.drop_next, Nat.one_pos, range_width_one h.next_width, fun hcount => absurd hcount (by decide)⟩

theorem ranges_begin (start : Nat) (sizes : List Nat) :
    ∀ g ∈ (rangesFrom start sizes).head?, g.1 = start := by
  cases sizes with
  | nil => exact nofun
  | cons n ns =>
    rintro g ⟨⟩
    rfl

theorem Filling.groups {rest : List Nat} (h : Filling o widths start used count rest) :
    (∀ g ∈ rangesFrom start (fillGroups o used count rest),
      2 ≤ g.2 - g.1 → rangeWidth o widths g ≤ o.maxLineWidth) ∧
    (rangesFrom start (fillGroups o used count rest)).IsChain (Crowded o widths) := by
  have hfirst : 2 ≤ start + count - start → rangeWidth o widths (start, start + count) ≤
      o.maxLineWidth := by
    intro hcount
    rw [h.width]
    exact h.fits (by omega)
  induction rest generalizing start used count with
  | nil =>
    refine ⟨fun g hg => ?_, .singleton _⟩
    rw [List.mem_singleton.mp hg]
    exact hfirst
  | cons w ws ih =>
    rw [fillGroups]
    split
    · rename_i hfits
      have hnext := h.take hfits
      exact ih hnext fun hcount => by
        rw [hnext.width]
        exact hfits
    · rename_i hcrowded
      obtain ⟨hfit, hchain⟩ := ih h.begin fun hcount => absurd hcount (by omega)
      refine ⟨fun g hg => ?_, List.isChain_cons.mpr ⟨fun g hg => ?_, hchain⟩⟩
      · rcases List.mem_cons.mp hg with rfl | hg
        · exact hfirst
        · exact hfit g hg
      · rw [Crowded, ranges_begin _ _ g hg, h.width]
        exact ⟨w, h.next_width, Nat.lt_of_not_le hcrowded⟩

end Fill

theorem group_columns_filled (o : Options) (widths : List Nat) :
    (∀ g ∈ groupColumns o widths, 2 ≤ g.2 - g.1 → rangeWidth o widths g ≤ o.maxLineWidth) ∧
      (groupColumns o widths).IsChain (Crowded o widths) := by
  cases widths with
  | nil => exact ⟨nofun, .nil⟩
  | cons w ws =>
    have hfilling : Filling o (w :: ws) 0 w 1 ws :=
      ⟨rfl, Nat.one_pos, range_width_one rfl, fun hcount => absurd hcount (by decide)⟩
    exact hfilling.groups

/-- Every column is in one of the ranges. -/
theorem Covers.mem_range {start stop : Nat} {groups : List (Nat × Nat)} (h : Covers start groups stop)
    {i : Nat} (hstart : start ≤ i) (hstop : i < stop) : ∃ g ∈ groups, g.1 ≤ i ∧ i < g.2 := by
  induction groups generalizing start with
  | nil =>
    have hend : start = stop := h
    omega
  | cons g gs ih =>
    obtain ⟨rfl, -, hrest⟩ := h
    by_cases hi : i < g.2
    · exact ⟨g, by simp, hstart, hi⟩
    · obtain ⟨g', hg', hrange⟩ := ih hrest (Nat.le_of_not_lt hi)
      exact ⟨g', List.mem_cons_of_mem _ hg', hrange⟩

theorem join_length (sep : List Char) (parts : List (List Char)) :
    (join sep parts).length = (parts.map List.length).sum + sep.length * (parts.length - 1) :=
  stack_length sep parts

theorem infix_join {sep s : List Char} {parts : List (List Char)} (h : s ∈ parts) :
    s <:+: join sep parts := by
  induction parts with
  | nil => cases h
  | cons t rest ih =>
    cases rest with
    | nil =>
      obtain rfl := List.mem_singleton.mp h
      rw [join_single]
    | cons u rest =>
      rw [join_cons_cons]
      rcases List.mem_cons.mp h with rfl | h
      · exact ⟨[], sep ++ join sep (u :: rest), by simp⟩
      · exact (ih h).trans (List.suffix_append _ _).isInfix

theorem pad_length {align : Align} {width : Nat} {cell : List Char} (h : cell.length ≤ width) :
    (pad align width cell).length = width := by
  cases align <;> simp [pad, h]

theorem infix_pad (align : Align) (width : Nat) (cell : List Char) :
    cell <:+: pad align width cell := by
  obtain ⟨a, b, hpad⟩ := pad_blanks align width cell
  exact ⟨List.replicate a ' ', List.replicate b ' ', hpad.symm⟩

theorem pad_cells_at (cols : List (Align × Nat)) (cells : List (List Char)) (k : Nat) :
    (padCells cols cells)[k]? = cols[k]?.map fun c => pad c.1 c.2 (cells[k]?.getD []) := by
  induction cols generalizing cells k with
  | nil => rfl
  | cons c cols ih =>
    rw [padCells]
    cases k with
    | zero => cases cells <;> rfl
    | succ k =>
      rw [List.getElem?_cons_succ, List.getElem?_cons_succ, ih]
      cases cells <;> rfl

theorem fold_max {cells : List (List Char)} {start : Nat} :
    start ≤ cells.foldl (fun w cell => max w cell.length) start ∧
      ∀ cell ∈ cells, cell.length ≤ cells.foldl (fun w cell => max w cell.length) start := by
  induction cells generalizing start with
  | nil => exact ⟨Nat.le_refl start, nofun⟩
  | cons s rest ih =>
    obtain ⟨hstart, hrest⟩ := @ih (max start s.length)
    refine ⟨by simp only [List.foldl_cons]; omega, fun cell hcell => ?_⟩
    rcases List.mem_cons.mp hcell with rfl | hcell
    · simp only [List.foldl_cons]
      omega
    · exact hrest cell hcell

section Lines
variable {o : Options} {headings : List Heading} {rows : List (List (List Char))}

/-- A column is as wide as each of its cells at least. -/
theorem column_wide {row : List (List Char)} (hrow : row ∈ headings.map Heading.text :: rows)
    {i w : Nat} {cell : List Char} (hcell : row[i]? = some cell)
    (hw : (columnWidths headings rows)[i]? = some w) : cell.length ≤ w := by
  rw [columnWidths, List.getElem?_map, List.getElem?_zipIdx] at hw
  obtain ⟨p, hp, rfl⟩ := Option.map_eq_some_iff.mp hw
  obtain ⟨h, hh, rfl⟩ := Option.map_eq_some_iff.mp hp
  rw [Nat.zero_add]
  rcases List.mem_cons.mp hrow with rfl | hrow
  · rw [List.getElem?_map, hh] at hcell
    cases hcell
    exact fold_max.1
  · exact fold_max.2 cell (List.mem_filterMap.mpr ⟨row, hrow, hcell⟩)

theorem slice_widths (g : Nat × Nat) :
    (slice g (columnsOf headings rows)).map Prod.snd = slice g (columnWidths headings rows) := by
  rw [slice, slice, List.map_take, List.map_drop, List.map_snd_zip]
  simp [columnWidths]

/-- Padded cells are as wide as their columns. -/
theorem padded_widths {row : List (List Char)} (hrow : row ∈ headings.map Heading.text :: rows)
    (g : Nat × Nat) :
    (padCells (slice g (columnsOf headings rows)) (slice g row)).map List.length =
      slice g (columnWidths headings rows) := by
  rw [← slice_widths]
  apply List.ext_getElem?
  intro k
  rw [List.getElem?_map, pad_cells_at, List.getElem?_map, Option.map_map]
  cases hcol : (slice g (columnsOf headings rows))[k]? with
  | none => rfl
  | some c =>
    rw [Option.map_some, Option.map_some, Option.some.injEq, Function.comp_apply]
    apply pad_length
    cases hcell : (slice g row)[k]? with
    | none => exact Nat.zero_le _
    | some cell =>
      have hwidth : (slice g (columnWidths headings rows))[k]? = some c.2 := by
        rw [← slice_widths, List.getElem?_map, hcol]
        rfl
      rw [slice_at] at hcell hwidth
      split at hcell
      · rename_i hk
        rw [if_pos hk] at hwidth
        exact column_wide hrow hcell hwidth
      · cases hcell

theorem line_length {row : List (List Char)} (hrow : row ∈ headings.map Heading.text :: rows)
    {g : Nat × Nat} (hg : g ∈ groupsOf o headings rows) :
    (groupLine o (columnsOf headings rows) g row).length ≤
      rangeWidth o (columnWidths headings rows) g := by
  obtain ⟨hlt, hle⟩ := (groups_cover o headings rows).mem hg
  have hwidths := padded_widths hrow g
  obtain ⟨blanks, -, hline⟩ := trim_end_append (join (List.replicate o.columnGap ' ')
    (padCells (slice g (columnsOf headings rows)) (slice g row)))
  have hcount := congrArg List.length hwidths
  rw [List.length_map, slice_length, widths_length] at hcount
  have hlength := congrArg List.length hline
  rw [join_length, hwidths, hcount, List.length_replicate, List.length_append] at hlength
  have hmin : min (g.2 - g.1) (headings.length - g.1) = g.2 - g.1 := by omega
  rw [hmin] at hlength
  rw [group_line_eq, rangeWidth]
  omega

theorem render_no_columns : ∀ l ∈ render o [] rows, l = [] := by
  intro l hl
  change l ∈ groupLine o [] (0, 0) [] :: rows.map (groupLine o [] (0, 0)) at hl
  rcases List.mem_cons.mp hl with rfl | hl
  · rfl
  · obtain ⟨row, -, rfl⟩ := List.mem_map.mp hl
    rfl

/-- Lines fit, except for a column that alone does not. -/
theorem line_fits {l : List Char} (hl : l ∈ render o headings rows) :
    l.length ≤ o.maxLineWidth ∨ ∃ g ∈ groupsOf o headings rows, g.2 = g.1 + 1 ∧
      (∃ w, (columnWidths headings rows)[g.1]? = some w ∧ o.maxLineWidth < w) ∧
      ∃ row ∈ headings.map Heading.text :: rows,
        l = groupLine o (columnsOf headings rows) g row := by
  by_cases hne : headings = []
  · subst hne
    rw [render_no_columns l hl]
    exact .inl (Nat.zero_le _)
  rcases mem_render hne hl with rfl | ⟨g, hg, row, hrow, rfl⟩
  · exact .inl (Nat.zero_le _)
  have hlength := line_length hrow hg
  by_cases hmany : 2 ≤ g.2 - g.1
  · exact .inl (hlength.trans ((group_columns_filled o _).1 g hg hmany))
  · obtain ⟨hlt, hle⟩ := (groups_cover o headings rows).mem hg
    have hone : g.2 = g.1 + 1 := by omega
    have hin : g.1 < (columnWidths headings rows).length := by
      rw [widths_length]
      omega
    have hw := List.getElem?_eq_getElem hin
    have hwidth := range_width_one (o := o) hw
    rw [← hone] at hwidth
    by_cases hfits : (columnWidths headings rows)[g.1] ≤ o.maxLineWidth
    · left
      exact hlength.trans (hwidth ▸ hfits)
    · exact .inr ⟨g, hg, hone, ⟨_, hw, Nat.lt_of_not_le hfits⟩, row, hrow, rfl⟩

/-- A line has a text in full. What may be missing are blanks at the end of the line, so that a text that
does not end in a blank is on the line itself. -/
structure InFull (s l : List Char) : Prop where
  uncut : ∃ blanks, (∀ c ∈ blanks, isBlank c = true) ∧ s <:+: l ++ blanks
  whole : (∀ c ∈ s.getLast?, isBlank c = false) → s <:+: l

/-- Blanks after a line do not help a text onto it that does not end in a blank. -/
theorem infix_without_blanks {s l blanks : List Char} (h : s <:+: l ++ blanks)
    (hblanks : ∀ c ∈ blanks, isBlank c = true) (hlast : ∀ c ∈ s.getLast?, isBlank c = false) :
    s <:+: l := by
  obtain ⟨before, after, heq⟩ := h
  rcases List.eq_nil_or_concat s with rfl | ⟨cs, c, rfl⟩
  · exact List.nil_infix
  · rcases List.append_eq_append_iff.mp heq with ⟨more, hl, -⟩ | ⟨more, hl, hmore⟩
    · exact ⟨before, more, hl.symm⟩
    · rcases List.eq_nil_or_concat more with rfl | ⟨ms, m, rfl⟩
      · rw [List.append_nil] at hl
        exact ⟨before, [], by rw [hl, List.append_nil]⟩
      · have hend := congrArg List.getLast? hl
        simp only [List.concat_eq_append, ← List.append_assoc, List.getLast?_concat,
          Option.some.injEq] at hend
        have hblank := hblanks m (by rw [hmore]; simp)
        have hshown := hlast c (by simp)
        rw [hend, hblank] at hshown
        cases hshown

/-- The line of a group has the cells of its columns in full. -/
theorem cell_in_full {row : List (List Char)} {g : Nat × Nat} {i : Nat} {cell : List Char}
    (hi : i < headings.length) (hrange : g.1 ≤ i ∧ i < g.2) (hcell : row[i]? = some cell) :
    InFull cell (groupLine o (columnsOf headings rows) g row) := by
  obtain ⟨k, rfl⟩ := Nat.exists_eq_add_of_le hrange.1
  have hk : k < g.2 - g.1 := by omega
  have hin : g.1 + k < (columnsOf headings rows).length := by rwa [columns_length]
  have hpadded : pad (columnsOf headings rows)[g.1 + k].1 (columnsOf headings rows)[g.1 + k].2 cell ∈
      padCells (slice g (columnsOf headings rows)) (slice g row) := by
    apply List.mem_of_getElem? (i := k)
    rw [pad_cells_at, slice_at, slice_at, if_pos hk, if_pos hk, hcell, List.getElem?_eq_getElem hin]
    rfl
  obtain ⟨blanks, hblanks, hline⟩ := trim_end_append (join (List.replicate o.columnGap ' ')
    (padCells (slice g (columnsOf headings rows)) (slice g row)))
  have hinfix : cell <:+: groupLine o (columnsOf headings rows) g row ++ blanks := by
    rw [group_line_eq, hline]
    exact (infix_pad _ _ cell).trans (infix_join hpadded)
  exact ⟨⟨blanks, hblanks, hinfix⟩, infix_without_blanks hinfix hblanks⟩

end Lines

/-- The groups of columns are consecutive and take every column once. A group of several columns fits the
line with its gaps, and the first column of the next group would not have fitted as well. So every line of
a table fits, unless it shows a single column that is too wide by itself, and every cell and heading stands
in full on the line of its group. -/
theorem groups_fill_lines (o : Options) :
    (∀ widths, Covers 0 (groupColumns o widths) widths.length ∧
      (∀ g ∈ groupColumns o widths, 2 ≤ g.2 - g.1 → rangeWidth o widths g ≤ o.maxLineWidth) ∧
      (groupColumns o widths).IsChain (Crowded o widths)) ∧
    ∀ headings rows,
      (∀ l ∈ render o headings rows, l.length ≤ o.maxLineWidth ∨
        ∃ g ∈ groupsOf o headings rows, g.2 = g.1 + 1 ∧
          (∃ w, (columnWidths headings rows)[g.1]? = some w ∧ o.maxLineWidth < w) ∧
          ∃ row ∈ headings.map Heading.text :: rows,
            l = groupLine o (columnsOf headings rows) g row) ∧
      ∀ row ∈ headings.map Heading.text :: rows, ∀ i < headings.length, ∀ cell,
        row[i]? = some cell → ∃ g ∈ groupsOf o headings rows, g.1 ≤ i ∧ i < g.2 ∧
          groupLine o (columnsOf headings rows) g row ∈ render o headings rows ∧
          InFull cell (groupLine o (columnsOf headings rows) g row) := by
  refine ⟨fun widths => ⟨group_columns_cover o widths, group_columns_filled o widths⟩,
    fun headings rows => ⟨fun l => line_fits, fun row hrow i hi cell hcell => ?_⟩⟩
  have hne : headings ≠ [] := by
    rintro rfl
    exact absurd hi (Nat.not_lt_zero i)
  obtain ⟨g, hg, hrange⟩ := (groups_cover o headings rows).mem_range (Nat.zero_le i) hi
  exact ⟨g, hg, hrange.1, hrange.2, group_line_mem_render hne hg hrow, cell_in_full hi hrange hcell⟩

example : groupColumns ⟨10, 2⟩ [4, 4, 12, 3] = [(0, 2), (2, 3), (3, 4)] := by decide

theorem groups_fill_lines_sites :
    (groupsOf ⟨12, 2⟩ siteHeadings siteRows = [(0, 2), (2, 3)] ∧ 2 ≤ 2 - 0 ∧
      rangeWidth ⟨12, 2⟩ (columnWidths siteHeadings siteRows) (0, 2) ≤ 12) ∧
    ("/srv/site/www".toList ∈ render ⟨12, 2⟩ siteHeadings siteRows ∧
      ("/srv/site/www".toList.length ≤ 12 ∨ ∃ g ∈ groupsOf ⟨12, 2⟩ siteHeadings siteRows,
        g.2 = g.1 + 1 ∧ (∃ w, (columnWidths siteHeadings siteRows)[g.1]? = some w ∧ 12 < w) ∧
        ∃ row ∈ siteHeadings.map Heading.text :: siteRows, "/srv/site/www".toList =
          groupLine ⟨12, 2⟩ (columnsOf siteHeadings siteRows) g row)) := by
  obtain ⟨hgroups, hlines⟩ := groups_fill_lines ⟨12, 2⟩
  have hcut : groupsOf ⟨12, 2⟩ siteHeadings siteRows = [(0, 2), (2, 3)] := by decide
  have hline : "/srv/site/www".toList ∈ render ⟨12, 2⟩ siteHeadings siteRows := by decide
  refine ⟨⟨hcut, by decide, ?_⟩, hline, (hlines siteHeadings siteRows).1 _ hline⟩
  exact (hgroups (columnWidths siteHeadings siteRows)).2.1 (0, 2) (by decide) (by decide)

end DocForms.Layout
