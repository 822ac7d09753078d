import DocForms.Proofs.Document.Rows
import DocForms.Proofs.Document.Rules
import DocForms.Proofs.Layout.RoundTrip
import DocForms.Proofs.Sheet.Legend
import DocForms.Proofs.Sheet.Values
import Mathlib.Data.List.Basic

namespace DocForms.Sheet
open Text Layout

theorem name_text {name : String} (h : isName name = true) : CellText name.toList :=
  (word_scalar (name_is_word h)).value

/-- The label of a column type in parentheses, after a space. -/
def labelText (t : ColumnType) : List Char :=
  ' ' :: '(' :: (t.label.toList ++ [')'])

theorem label_plain (t : ColumnType) :
    ' ' ∉ t.label.toList ++ [')'] ∧ '"' ∉ t.label.toList ++ [')'] ∧
      NoControl (t.label.toList ++ [')']) ∧
      ColumnType.ofLabel? (String.ofList t.label.toList) = some t := by
  rw [String.ofList_toList]
  cases t <;> exact ⟨by decide, by decide, by unfold NoControl; decide, by decide⟩

theorem label_one_cell (t : ColumnType) : OneCell .plain (labelText t) := by
  obtain ⟨hspace, hquote, _, _⟩ := label_plain t
  refine ⟨by simp, ?_⟩
  apply (no_gap_of_no_space _).one_cell
  · simp only [List.mem_cons, not_or]
    exact ⟨by decide, hquote⟩
  · simp only [List.mem_cons, not_or]
    exact ⟨by decide, hspace⟩

theorem heading_text_cases (c : Column) (n : ShownName) :
    (c.type = .string ∧ (headingOf c n).text = n.text.toList) ∨
      (headingOf c n).text = n.text.toList ++ labelText c.type := by
  by_cases h : c.type = .string
  · exact .inl ⟨h, by simp [headingOf, h]⟩
  · exact .inr (by simp [headingOf, h, labelText])

/-- The heading of a column fills a cell. -/
theorem heading_text {c : Column} {n : ShownName} (h : isName n.text = true) :
    CellText (headingOf c n).text := by
  have hname := name_text h
  rcases heading_text_cases c n with ⟨_, htext⟩ | htext
  · rw [htext]
    exact hname
  · obtain ⟨_, _, hcontrol, _⟩ := label_plain c.type
    rw [htext]
    refine ⟨?_, ?_, hname.oneCell.append (label_one_cell c.type), ?_⟩
    · obtain ⟨x, xs, hx, hb⟩ := hname.bounded.first
      exact ⟨⟨x, xs ++ labelText c.type, by rw [hx]; rfl, hb⟩,
        n.text.toList ++ ' ' :: '(' :: c.type.label.toList, ')', by simp [labelText], by decide⟩
    · exact hname.noControl.append ((hcontrol.cons (by decide)).cons (by decide))
    · exact (word_scalar (name_is_word h)).first_append _

theorem split_label_none {s : List Char} (h : ' ' ∉ s) : splitLabel s = none := by
  induction s with
  | nil => rfl
  | cons c cs ih =>
    simp only [List.mem_cons, not_or] at h
    unfold splitLabel
    rw [ih h.2]
    dsimp only
    split
    · exact absurd rfl h.1
    · rfl

theorem split_label (name : List Char) {label : List Char} (h : ' ' ∉ label) :
    splitLabel (name ++ ' ' :: '(' :: label) = some (name, label) := by
  induction name with
  | nil =>
    have hnone : splitLabel ('(' :: label) = none := split_label_none (by simp [h])
    unfold splitLabel
    simp only [List.nil_append, hnone]
  | cons c cs ih =>
    unfold splitLabel
    simp only [List.cons_append, ih]

/-- A column is read back from its heading, with the name that the legend leads to. -/
theorem read_heading {r : Registry} {legend : List (List Char)} {c : Column} {n : ShownName}
    (hn : isName n.text = true) (hmeant : nameMeant r legend n.text.toList = c.name) :
    readHeading r legend (headingOf c n).text = .ok c := by
  have hword : Word n.text.toList := name_is_word hn
  rcases heading_text_cases c n with ⟨htype, htext⟩ | htext
  · have hdrop : dropLast? ')' n.text.toList = none := by
      rw [dropLast?, if_neg]
      intro hlast
      exact hword.not_mem (c := ')') (by decide) (List.mem_of_getLast? hlast)
    rw [readHeading, htext, hdrop, Option.bind_none, hmeant, ← htype]
  · obtain ⟨hspace, _, _, hlabel⟩ := label_plain c.type
    have hspace' : ' ' ∉ c.type.label.toList := fun h => hspace (List.mem_append_left _ h)
    have hsplit : n.text.toList ++ labelText c.type =
        n.text.toList ++ ' ' :: '(' :: c.type.label.toList ++ [')'] := by simp [labelText]
    rw [readHeading, htext, hsplit, dropLast?, List.getLast?_concat, if_pos rfl,
      List.dropLast_concat, Option.bind_some, split_label _ hspace']
    simp only [hlabel, hmeant]

/-- The cells of a row: each fills its place, and the stored ones are read back. -/
structure RowCells (s : Section) (row : Row) (cells : List (List Char)) : Prop where
  length : cells.length = s.columns.length
  texts : ∀ t ∈ cells, CellText t
  read : ∀ n, readRow s.columns (n, cells) = .ok row

theorem auto_text (n : Int64) : CellText (valueText true (.int n)) :=
  have h : Value.Lawful (some .int) (.int n) := fun _ ht => .inl (Option.some.inj ht).symm
  (value_text h).1

theorem row_cells {s : Section} {row : Row} (hrow : s.LawfulRow row) {index : Nat}
    (hindex : s.rows[index]? = some row) :
    ∃ full, s.expandedRow? index = some full ∧ RowCells s row (full.map (valueText true)) := by
  obtain ⟨full, hsplice, hspliced⟩ := splice_row index hrow.width
  have hlength := hspliced.length
  have hfilter := hspliced.stored_cells
  have hlawful : ∀ p ∈ s.columns.zip full, p.1.type.isStored = true → p.2.Lawful (some p.1.type) := by
    intro p hp hstored
    apply hrow.cells
    rw [Section.storedColumns, ← hfilter]
    exact List.mem_filter.mpr ⟨hp, hstored⟩
  have htexts : ∀ p ∈ s.columns.zip full, CellText (valueText true p.2) := by
    intro p hp
    cases hstored : p.1.type.isStored with
    | true => exact (cell_text (hlawful p hp hstored)).1
    | false =>
      rw [hspliced.auto_cells p hp hstored]
      exact auto_text _
  refine ⟨full, ?_, by simp [hlength], ?_, ?_⟩
  · rw [Section.expandedRow?, hindex, Option.bind_some, hsplice]
  · intro t ht
    obtain ⟨v, hv, rfl⟩ := List.mem_map.mp ht
    rw [← List.map_snd_zip (Nat.le_of_eq hlength)] at hv
    obtain ⟨p, hp, rfl⟩ := List.mem_map.mp hv
    exact htexts p hp
  · intro n
    have hcells : ((s.columns.zip (full.map (valueText true))).filter fun p => p.1.type.isStored) =
        (s.storedColumns.zip row).map fun p => (p.1, valueText true p.2) := by
      rw [Section.storedColumns, ← hfilter, List.zip_map_right, List.filter_map]
      rfl
    have hwidth : row.length = s.storedColumns.length := hrow.width
    have hread : ((s.storedColumns.zip row).map fun p => (p.1, valueText true p.2)).mapM
        (fun p => (readValue (some p.1.type) p.2).mapError
          (Failure.parse n <| .cell p.1.name ·)) =
        .ok ((s.storedColumns.zip row).map Prod.snd) := mapM_map fun p hp => by
        rw [(cell_text (hrow.cells p hp)).2]
        rfl
    rw [List.map_snd_zip (Nat.le_of_eq hwidth)] at hread
    rw [readRow]
    exact hcells ▸ hread

theorem table_rows {s : Section} (hs : s.Lawful) :
    ∃ cells : Nat → List (List Char), tableRows s = (List.range s.rows.length).map cells ∧
      ∀ i, (h : i < s.rows.length) → RowCells s s.rows[i] (cells i) := by
  have hrow : ∀ i, (h : i < s.rows.length) → ∃ full, s.expandedRow? i = some full ∧
      RowCells s s.rows[i] (full.map (valueText true)) := fun i h =>
    row_cells (hs.rows _ (List.getElem_mem h)) (List.getElem?_eq_getElem h)
  refine ⟨fun i => ((s.expandedRow? i).getD []).map (valueText true), ?_, ?_⟩
  · rw [tableRows, List.filterMap_eq_map_iff_forall_eq_some]
    intro i hi
    obtain ⟨full, hfull, _⟩ := hrow i (List.mem_range.mp hi)
    rw [hfull]
    rfl
  · intro i hi
    obtain ⟨full, hfull, hcells⟩ := hrow i hi
    dsimp only
    rw [hfull]
    exact hcells

/-- Rows are read back, whatever the lines that they start on. -/
theorem read_rows {s : Section} (hs : s.Lawful) {rows : List (Nat × List (List Char))}
    (hrows : rows.map Prod.snd = tableRows s) : rows.mapM (readRow s.columns) = .ok s.rows := by
  obtain ⟨cells, htable, hcells⟩ := table_rows hs
  have hlength : rows.length = s.rows.length := by
    have := congrArg List.length (hrows.trans htable)
    simpa using this
  have hnumbered : rows =
      (List.range s.rows.length).map fun i => ((rows.map Prod.fst).getD i 0, cells i) := by
    apply List.ext_getElem (by simp [hlength])
    intro i hi _
    have hcell : (rows.map Prod.snd)[i]? = some (cells i) := by
      rw [hrows, htable]
      simp [hlength ▸ hi]
    simp only [List.getElem?_map, List.getElem?_eq_getElem hi, Option.map_some,
      Option.some.injEq] at hcell
    simp [hi, ← hcell]
  rw [hnumbered, mapM_map (f := fun i => s.rows.getD i [])]
  · congr 1
    apply List.ext_getElem (by simp)
    intro i hi _
    simp only [List.length_map, List.length_range] at hi
    simp [hi]
  · intro i hi
    have hlt := List.mem_range.mp hi
    rw [(hcells i hlt).read]
    simp [hlt]

end DocForms.Sheet
