import DocForms.Layout.Columns
import DocForms.Proofs.Text.Cells
import Mathlib.Algebra.BigOperators.Group.List.Defs
import Mathlib.Algebra.GroupWithZero.Nat
import Mathlib.Data.List.Basic
import Mathlib.Data.List.Chain

namespace DocForms.Layout
open Text

/-- The cells of a range of columns. -/
def slice {α : Type} (range : Nat × Nat) (xs : List α) : List α :=
  (xs.drop range.1).take (range.2 - range.1)

/-- Ranges that follow each other from one column to another, none of them empty. -/
def Covers : (start : Nat) → List (Nat × Nat) → (stop : Nat) → Prop
  | start, [], stop => start = stop
  | start, g :: gs, stop => g.1 = start ∧ start < g.2 ∧ Covers g.2 gs stop

theorem Covers.le {start stop : Nat} {groups : List (Nat × Nat)} (h : Covers start groups stop) :
    start ≤ stop := by
  induction groups generalizing start with
  | nil => exact Nat.le_of_eq h
  | cons g gs ih => exact Nat.le_trans (Nat.le_of_lt h.2.1) (ih h.2.2)

theorem Covers.mem {start stop : Nat} {groups : List (Nat × Nat)} (h : Covers start groups stop)
    {g : Nat × Nat} (hg : g ∈ groups) : g.1 < g.2 ∧ g.2 ≤ stop := by
  induction groups generalizing start with
  | nil => cases hg
  | cons g' gs ih =>
    obtain ⟨hfirst, hlt, hrest⟩ := h
    rcases List.mem_cons.mp hg with rfl | hg
    · exact ⟨hfirst ▸ hlt, hrest.le⟩
    · exact ih hrest hg

/-- The parts of a list that consecutive ranges cut make up the list. -/
theorem Covers.slices {α : Type} {xs : List α} {start : Nat} {groups : List (Nat × Nat)}
    (h : Covers start groups xs.length) : (groups.map (slice · xs)).flatten = xs.drop start := by
  induction groups generalizing start with
  | nil =>
    have hstart : start = xs.length := h
    simp [hstart]
  | cons g gs ih =>
    obtain ⟨rfl, hlt, hrest⟩ := h
    rw [List.map_cons, List.flatten_cons, ih hrest, slice]
    have hdrop : xs.drop g.2 = (xs.drop g.1).drop (g.2 - g.1) := by
      rw [List.drop_drop]
      congr 1
      omega
    rw [hdrop, List.take_append_drop]

theorem slice_length {α : Type} (g : Nat × Nat) (xs : List α) :
    (slice g xs).length = min (g.2 - g.1) (xs.length - g.1) := by
  simp [slice]

theorem Covers.slice_ne_nil {α : Type} {xs : List α} {start : Nat} {groups : List (Nat × Nat)}
    (h : Covers start groups xs.length) {g : Nat × Nat} (hg : g ∈ groups) : slice g xs ≠ [] := by
  obtain ⟨hlt, hle⟩ := h.mem hg
  apply List.ne_nil_of_length_pos
  rw [slice_length]
  omega

theorem mem_of_mem_slice {α : Type} {g : Nat × Nat} {xs : List α} {x : α} (h : x ∈ slice g xs) :
    x ∈ xs :=
  List.mem_of_mem_drop (List.mem_of_mem_take h)

theorem ranges_cover {sizes : List Nat} (h : ∀ n ∈ sizes, 0 < n) (start : Nat) :
    Covers start (rangesFrom start sizes) (start + sizes.sum) := by
  induction sizes generalizing start with
  | nil => rfl
  | cons n ns ih =>
    have hn := h n (by simp)
    refine ⟨rfl, Nat.lt_add_of_pos_right hn, ?_⟩
    rw [List.sum_cons, ← Nat.add_assoc]
    exact ih (fun m hm => h m (List.mem_cons_of_mem _ hm)) (start + n)

theorem fill_groups_sum (o : Options) (used count : Nat) (widths : List Nat) :
    (fillGroups o used count widths).sum = count + widths.length := by
  induction widths generalizing used count with
  | nil => rfl
  | cons w ws ih =>
    rw [fillGroups]
    split
    · rw [ih, List.length_cons]
      omega
    · rw [List.sum_cons, ih, List.length_cons]
      omega

theorem fill_groups_pos (o : Options) (used : Nat) {count : Nat} (hcount : 0 < count)
    (widths : List Nat) : ∀ n ∈ fillGroups o used count widths, 0 < n := by
  induction widths generalizing used count with
  | nil =>
    intro n hn
    rw [List.mem_singleton.mp hn]
    exact hcount
  | cons w ws ih =>
    intro n hn
    rw [fillGroups] at hn
    split at hn
    · exact ih _ (Nat.succ_pos count) n hn
    · rcases List.mem_cons.mp hn with rfl | hn
      · exact hcount
      · exact ih _ Nat.one_pos n hn

/-- The groups take every column, in order and none twice. -/
theorem group_columns_cover (o : Options) (widths : List Nat) :
    Covers 0 (groupColumns o widths) widths.length := by
  cases widths with
  | nil => rfl
  | cons w ws =>
    have hsum := fill_groups_sum o w 1 ws
    have hcover := ranges_cover (fill_groups_pos o w Nat.one_pos ws) 0
    rw [hsum, Nat.zero_add, Nat.add_comm] at hcover
    exact hcover

theorem pad_blanks (align : Align) (width : Nat) (cell : List Char) :
    ∃ a b, pad align width cell = List.replicate a ' ' ++ cell ++ List.replicate b ' ' := by
  cases align with
  | left => exact ⟨0, width - cell.length, by simp [pad]⟩
  | right => exact ⟨width - cell.length, 0, by simp [pad]⟩

/-- Padding only widens the gaps. -/
theorem join_padded {gap : Nat} (hgap : 2 ≤ gap) {cols : List (Align × Nat)}
    {cells : List (List Char)} (hlength : cells.length = cols.length) (hne : cells ≠ [])
    (hcells : ∀ s ∈ cells, Cell s) :
    ∃ k t j, join (List.replicate gap ' ') (padCells cols cells) =
      List.replicate k ' ' ++ t ++ List.replicate j ' ' ∧ Spaced cells t := by
  induction cells generalizing cols with
  | nil => exact absurd rfl hne
  | cons s rest ih =>
    have hs := hcells s (by simp)
    cases cols with
    | nil => cases hlength
    | cons col cols =>
      obtain ⟨a, b, hpad⟩ := pad_blanks col.1 col.2 s
      cases rest with
      | nil =>
        have hcols : cols = [] := by
          cases cols with
          | nil => rfl
          | cons _ _ => simp at hlength
        refine ⟨a, s, b, ?_, .last hs⟩
        rw [hcols, padCells, padCells, join_single, List.headD_cons, hpad]
      | cons s' rest =>
        obtain ⟨k, t, j, hjoin, hspaced⟩ := ih (by simpa using hlength) (by simp)
          (fun u hu => hcells u (List.mem_cons_of_mem _ hu))
        cases cols with
        | nil => simp at hlength
        | cons col' cols =>
          obtain ⟨m, hm⟩ := Nat.exists_eq_add_of_le (show 2 ≤ b + gap + k by omega)
          refine ⟨a, s ++ List.replicate (m + 2) ' ' ++ t, j, ?_, hspaced.cons m hs⟩
          rw [padCells, List.tail_cons, padCells, join_cons_cons, ← padCells, List.headD_cons, hpad,
            hjoin, Nat.add_comm m 2, ← hm]
          simp only [← List.replicate_append_replicate, List.append_assoc]

theorem trim_end_blanks {t : List Char} (h : Bounded t) (k j : Nat) :
    trimEnd (List.replicate k ' ' ++ t ++ List.replicate j ' ') = List.replicate k ' ' ++ t := by
  obtain ⟨cs, c, rfl, hc⟩ := h.last
  have hblanks : ∀ d ∈ List.replicate j ' ', isBlank d = true := by
    intro d hd
    rw [(List.mem_replicate.mp hd).2]
    decide
  have hdrop := drop_end_while_append (p := isBlank) hc (List.replicate k ' ' ++ cs) _ hblanks
  rw [← List.append_assoc]
  exact hdrop

theorem group_line_eq (o : Options) (cols : List (Align × Nat)) (g : Nat × Nat)
    (cells : List (List Char)) : groupLine o cols g cells =
      trimEnd (join (List.replicate o.columnGap ' ') (padCells (slice g cols) (slice g cells))) :=
  rfl

/-- The line of a group: its cells with gaps, after what blanks there are. -/
theorem group_line_spaced {o : Options} (hgap : 2 ≤ o.columnGap) {cols : List (Align × Nat)}
    {cells : List (List Char)} (hlength : cells.length = cols.length)
    (hcells : ∀ s ∈ cells, Cell s) {groups : List (Nat × Nat)}
    (hgroups : Covers 0 groups cells.length) {g : Nat × Nat} (hg : g ∈ groups) :
    ∃ k t, groupLine o cols g cells = List.replicate k ' ' ++ t ∧ Spaced (slice g cells) t := by
  obtain ⟨k, t, j, hjoin, hspaced⟩ := join_padded hgap
    (by rw [slice_length, slice_length, hlength]) (hgroups.slice_ne_nil hg)
    (fun s hs => hcells s (mem_of_mem_slice hs))
  exact ⟨k, t, by rw [group_line_eq, hjoin, trim_end_blanks hspaced.bounded], hspaced⟩

theorem stack_single {α : Type} (sep part : List α) : stack sep [part] = part := by
  simp [stack]

theorem stack_cons_cons {α : Type} (sep p q : List α) (rest : List (List α)) :
    stack sep (p :: q :: rest) = p ++ sep ++ stack sep (q :: rest) := by
  simp [stack]

theorem stack_length {α : Type} (sep : List α) (parts : List (List α)) :
    (stack sep parts).length = (parts.map List.length).sum + sep.length * (parts.length - 1) := by
  induction parts with
  | nil => rfl
  | cons p rest ih =>
    cases rest with
    | nil => simp [stack_single]
    | cons q rest =>
      rw [stack_cons_cons, List.length_append, List.length_append, ih]
      simp only [List.map_cons, List.sum_cons, List.length_cons, Nat.add_sub_cancel, Nat.mul_succ]
      omega

/-- The lines of one paragraph: a heading and rows, in a range of columns. -/
def paragraphLines (line : Nat × Nat → List (List Char) → List Char)
    (titles : List (List Char)) (rows : List (List (List Char))) (g : Nat × Nat) :
    List (List Char) :=
  line g titles :: rows.map (line g)

/-- The columns of a table with their widths. -/
abbrev columnsOf (headings : List Heading) (rows : List (List (List Char))) : List (Align × Nat) :=
  (headings.map Heading.align).zip (columnWidths headings rows)

theorem widths_length (headings : List Heading) (rows : List (List (List Char))) :
    (columnWidths headings rows).length = headings.length := by
  simp [columnWidths]

/-- The groups of the columns of a table. -/
abbrev groupsOf (o : Options) (headings : List Heading) (rows : List (List (List Char))) :
    List (Nat × Nat) :=
  groupColumns o (columnWidths headings rows)

theorem groups_cover (o : Options) (headings : List Heading) (rows : List (List (List Char))) :
    Covers 0 (groupsOf o headings rows) headings.length :=
  widths_length headings rows ▸ group_columns_cover o (columnWidths headings rows)

theorem groups_ne_nil (o : Options) {headings : List Heading} (hne : headings ≠ [])
    (rows : List (List (List Char))) : groupsOf o headings rows ≠ [] := by
  intro hnil
  have hcover := groups_cover o headings rows
  rw [hnil] at hcover
  exact hne (List.length_eq_zero_iff.mp hcover.symm)

/-- The rows of each record: all rows together if the columns make one group, else one row each. -/
def recordRows (groups : List (Nat × Nat)) (rows : List (List (List Char))) :
    List (List (List (List Char))) :=
  if groups.length ≤ 1 ∨ rows = [] then [rows] else rows.map fun row => [row]

theorem record_rows_ne_nil (groups : List (Nat × Nat)) (rows : List (List (List Char))) :
    recordRows groups rows ≠ [] := by
  unfold recordRows
  split
  · exact List.cons_ne_nil _ _
  · rename_i h
    simpa using fun hnil => h (.inr hnil)

theorem record_rows_flatten (groups : List (Nat × Nat)) (rows : List (List (List Char))) :
    (recordRows groups rows).flatten = rows := by
  unfold recordRows
  split
  · simp
  · rw [← List.flatMap_def]
    exact List.flatMap_singleton' rows

/-- A table is written as records, and a record as one paragraph for each group of columns. -/
theorem render_records (o : Options) {headings : List Heading} (hne : headings ≠ [])
    (rows : List (List (List Char))) :
    render o headings rows = stack [[], []] ((recordRows (groupsOf o headings rows) rows).map
      fun chunk => stack [[]] ((groupsOf o headings rows).map (paragraphLines
        (groupLine o (columnsOf headings rows)) (headings.map Heading.text) chunk))) := by
  have hcover := groups_cover o headings rows
  simp only [render]
  split
  · rename_i first second more hgroups
    rw [groupsOf, hgroups, recordRows]
    split
    · rename_i hrows
      obtain rfl : rows = [] := List.isEmpty_iff.mp hrows
      rw [if_pos (.inr rfl), List.map_singleton, stack_single]
      rfl
    · rename_i hrows
      rw [if_neg (by simpa using hrows), List.map_map]
      rfl
  · rename_i hfew
    obtain ⟨g, more, hgroups⟩ := List.exists_cons_of_ne_nil (groups_ne_nil o hne rows)
    cases more with
    | cons g' more => exact absurd hgroups (hfew g g' more)
    | nil =>
      rw [hgroups] at hcover ⊢
      obtain rfl : g = (0, headings.length) := Prod.ext hcover.1 hcover.2.2
      rw [recordRows, if_pos (.inl (Nat.le_refl 1)), List.map_singleton, List.map_singleton,
        stack_single, stack_single]
      rfl

end DocForms.Layout
