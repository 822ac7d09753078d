import DocForms.Proofs.Compact.Values
import DocForms.Proofs.Document.Fields
import DocForms.Proofs.Document.Rules
import DocForms.Proofs.Text.Lines

namespace DocForms.Compact
open Text

/-- What a draft has read: context, references, closed sections and the open one. Line numbers do not
matter. -/
structure Draft.Holds (d : Draft) (context : List (String × Value))
    (references : List (String × String)) (closed : List Section) (current : Option Section) :
    Prop where
  context : d.context.entries = context
  references : d.references.entries = references
  closed : d.closed.map Placed.table = closed
  current : d.current.map Placed.table = current

theorem Draft.holds_empty : Draft.Holds {} [] [] [] none :=
  ⟨rfl, rfl, rfl, rfl⟩

theorem Draft.Holds.placed {d : Draft} {context : List (String × Value)}
    {references : List (String × String)} {closed : List Section} {current : Option Section}
    (h : d.Holds context references closed current) :
    d.placed.map Placed.table = closed ++ current.toList := by
  rw [Draft.placed, List.map_append, h.closed, ← h.current]
  cases d.current <;> rfl

theorem Draft.Holds.close {d : Draft} {context : List (String × Value)}
    {references : List (String × String)} {closed : List Section} {current : Option Section}
    (h : d.Holds context references closed current) :
    d.close.Holds context references (closed ++ current.toList) none :=
  ⟨h.context, h.references, h.placed, rfl⟩

/-- Lines, wherever they stand, are read from one kind of draft into another. -/
def Reads (ls : List (List Char)) (P Q : Draft → Prop) : Prop :=
  ∀ n d, P d → ∃ e, (numberedFrom n ls).foldlM Draft.addLine d = .ok e ∧ Q e

theorem Reads.nil {P : Draft → Prop} : Reads [] P P :=
  fun _ d hd => ⟨d, rfl, hd⟩

theorem Reads.append {ls ms : List (List Char)} {P Q R : Draft → Prop} (h : Reads ls P Q)
    (h' : Reads ms Q R) : Reads (ls ++ ms) P R := by
  intro n d hd
  obtain ⟨e, he, hq⟩ := h n d hd
  obtain ⟨f, hf, hr⟩ := h' (n + ls.length) e hq
  refine ⟨f, ?_, hr⟩
  rw [numbered_from_append, List.foldlM_append, he, ok_bind, hf]

theorem Reads.line {l : List Char} {P Q : Draft → Prop}
    (h : ∀ n d, P d → ∃ e, d.addLine (n, l) = .ok e ∧ Q e) : Reads [l] P Q := by
  intro n d hd
  obtain ⟨e, he, hq⟩ := h n d hd
  refine ⟨e, ?_, hq⟩
  rw [numbered_from_cons, List.foldlM_cons, he]
  rfl

theorem add_context_line {d : Draft} {n : Nat} {fields : List Char} (h : NoControl fields) :
    d.addLine (n, "#c:".toList ++ fields) = d.close.addContext n fields := by
  have hline : NoControl ("#c:".toList ++ fields) :=
    .append (by unfold NoControl; decide) h
  simp only [Draft.addLine, drop_returns hline]
  rw [if_neg (by simp [isBlankLine, isBlank])]
  rfl

theorem add_reference_line {d : Draft} {n : Nat} {reference : List Char} (h : NoControl reference) :
    d.addLine (n, "#:".toList ++ reference) = d.close.addReference n reference := by
  have hline : NoControl ("#:".toList ++ reference) :=
    .append (by unfold NoControl; decide) h
  simp only [Draft.addLine, drop_returns hline]
  rw [if_neg (by simp [isBlankLine, isBlank])]
  rfl

/-- A heading is told from the other lines with a number sign by its first two characters. -/
theorem add_heading_line {d : Draft} {n : Nat} {heading : List Char} (h : NoControl heading)
    (hcolon : ':' ∉ heading.take 2) :
    d.addLine (n, '#' :: heading) = d.close.openSection n heading := by
  simp only [Draft.addLine, drop_returns (h.cons (by decide : isControl '#' = false))]
  rw [if_neg (by simp [isBlankLine, isBlank])]
  split
  · rename_i heq
    cases heq
    simp at hcolon
  · rename_i heq
    cases heq
    simp at hcolon
  · rename_i heq
    cases heq
    rfl
  · rename_i hne
    exact absurd rfl (hne _)

theorem add_row_line {d : Draft} {n : Nat} {l : List Char} (h : Piece [] ['#'] l) :
    d.addLine (n, l) = d.addRow n l := by
  simp only [Draft.addLine, drop_returns h.noControl]
  rw [if_neg (by simp [not_blank_line h.bounded])]
  have hfirst := h.first
  split
  · exact absurd (by simp) (hfirst '#' rfl)
  · exact absurd (by simp) (hfirst '#' rfl)
  · exact absurd (by simp) (hfirst '#' rfl)
  · rfl

theorem name_word {name : String} (h : isName name = true) : Word name.toList :=
  name_is_word h

theorem context_entry_piece {key : String} {v : Value} (hkey : isName key = true)
    (hv : v.Lawful none) : Piece [';'] ['#'] (contextEntry key v) :=
  .after_word (name_word hkey) (by decide) (by decide) (by decide) (by decide) (by decide)
    (context_value hv).1

theorem add_context_entry {d : Draft} {n : Nat} {key : String} {v : Value}
    (hkey : isName key = true) (hv : v.Lawful none) (hnew : key ∉ d.context.keys) :
    d.addContextEntry n (contextEntry key v) =
      .ok { d with context := d.context.insert key v } := by
  have hsplit : splitOnce '|' (contextEntry key v) = some (key.toList, contextText v) :=
    split_once_append ((name_word hkey).not_mem (by decide)) _
  have hname : isNameText key.toList = true := hkey
  simp only [Draft.addContextEntry, hsplit, hname, String.ofList_toList,
    Fields.contains_eq_false hnew, (context_value hv).2]
  rfl

/-- The entries of a context line are added one after the other. -/
theorem add_context_entries {n : Nat} {entries : List (String × Value)}
    (h : ∀ e ∈ entries, isName e.1 = true ∧ e.2.Lawful none) (d : Draft)
    (hnodup : ((d.context.entries ++ entries).map Prod.fst).Nodup) :
    ∃ c : Context, (entries.map fun e => contextEntry e.1 e.2).foldlM (Draft.addContextEntry n) d =
      .ok { d with context := c } ∧ c.entries = d.context.entries ++ entries := by
  induction entries generalizing d with
  | nil => exact ⟨d.context, rfl, by simp⟩
  | cons e rest ih =>
    obtain ⟨key, v⟩ := e
    have hnew : key ∉ d.context.keys :=
      Fields.new_key (g := ⟨d.context.entries ++ (key, v) :: rest, hnodup⟩) rfl
    obtain ⟨hkey, hv⟩ := h (key, v) (by simp)
    have hstep := add_context_entry (n := n) hkey hv hnew
    have hentries : (d.context.insert key v).entries ++ rest =
        d.context.entries ++ (key, v) :: rest := by
      rw [Fields.insert_entries hnew, List.append_assoc, List.singleton_append]
    obtain ⟨c, hc, hce⟩ := ih (fun e he => h e (List.mem_cons_of_mem _ he))
      { d with context := d.context.insert key v } (by rw [hentries]; exact hnodup)
    refine ⟨c, ?_, hce.trans hentries⟩
    rw [List.map_cons, List.foldlM_cons, hstep, ok_bind, hc]

/-- The fields of a context line are its entries. -/
theorem context_fields {c : Context} (h : ∀ e ∈ c.entries, isName e.1 = true ∧ e.2.Lawful none)
    (hne : c.entries ≠ []) :
    NoControl (join [';'] (c.entries.map fun e => contextEntry e.1 e.2)) ∧
      join [';'] (c.entries.map fun e => contextEntry e.1 e.2) ≠ [] ∧
      splitQuoted ';' (join [';'] (c.entries.map fun e => contextEntry e.1 e.2)) =
        .ok (c.entries.map fun e => contextEntry e.1 e.2) := by
  have hpieces : ∀ s ∈ c.entries.map fun e => contextEntry e.1 e.2, Piece [';'] ['#'] s := by
    intro s hs
    obtain ⟨e, he, rfl⟩ := List.mem_map.mp hs
    exact context_entry_piece (h e he).1 (h e he).2
  have hne' : (c.entries.map fun e => contextEntry e.1 e.2) ≠ [] := by simpa using hne
  refine ⟨.join (by unfold NoControl; decide) fun s hs => (hpieces s hs).noControl, ?_, ?_⟩
  · exact (Bounded.join hne' fun s hs => (hpieces s hs).bounded).ne_nil
  · exact Piece.split_join (by decide) (by decide) hne' hpieces

/-- The context line is read into an empty context. -/
theorem reads_context {c : Context} (h : ∀ e ∈ c.entries, isName e.1 = true ∧ e.2.Lawful none) :
    Reads (if c.isEmpty then [] else [contextLine c]) (fun d => d.Holds [] [] [] none)
      (fun d => d.Holds c.entries [] [] none) := by
  by_cases hempty : c.entries = []
  · rw [if_pos (by simp [Fields.isEmpty, hempty]), hempty]
    exact .nil
  rw [if_neg (by simp [Fields.isEmpty, hempty])]
  apply Reads.line
  intro n d hd
  obtain ⟨hcontrol, hne, hsplit⟩ := context_fields h hempty
  let d' := { d.close with contextLine := d.close.contextLine <|> some n }
  have hcontext : d'.context.entries = [] := hd.context
  obtain ⟨c', hc', hce⟩ := add_context_entries (n := n) h d' (by rw [hcontext]; exact c.nodup)
  refine ⟨{ d' with context := c' }, ?_, ?_⟩
  · rw [contextLine, add_context_line hcontrol, Draft.addContext,
      List.isEmpty_eq_false_iff.mpr hne, hsplit, map_error_ok]
    exact hc'
  · exact ⟨by rw [hce, hcontext]; rfl, hd.references, hd.close.closed, rfl⟩

theorem reference_no_control {key : String} (hkey : isName key = true) (target : String) :
    NoControl (key.toList ++ '|' :: quoteIf (needsQuotes [] target.toList) target.toList) := by
  have htarget : Piece [] [] (quoteIf (needsQuotes [] target.toList) target.toList) :=
    quote_if_piece (fun h => h) (by simp) (by simp)
  exact (name_word hkey).no_control.append (htarget.noControl.cons (by decide))

theorem read_target (target : String) :
    unquote (quoteIf (needsQuotes [] target.toList) target.toList) = .ok target.toList :=
  unquote_quote_if fun hn => (bare_of_needs_quotes hn).not_mem (.inr (.inl rfl))

/-- A reference line adds its reference. -/
theorem reads_reference {context : List (String × Value)} {done : List (String × String)}
    {key target : String} (hkey : isName key = true) (hnew : key ∉ done.map Prod.fst) :
    Reads [referenceLine key target] (fun d => d.Holds context done [] none)
      (fun d => d.Holds context (done ++ [(key, target)]) [] none) := by
  apply Reads.line
  intro n d hd
  have hsplit : splitOnce '|' (key.toList ++ '|' ::
      quoteIf (needsQuotes [] target.toList) target.toList) = some (key.toList, _) :=
    split_once_append ((name_word hkey).not_mem (by decide)) _
  have hname : isNameText key.toList = true := hkey
  have hkeys : key ∉ d.close.references.keys := by
    rw [Fields.keys, hd.close.references]
    exact hnew
  refine ⟨{ d.close with references := d.close.references.insert key target }, ?_, ?_⟩
  · rw [referenceLine, List.append_assoc, add_reference_line (reference_no_control hkey target)]
    simp only [Draft.addReference, hsplit, hname, String.ofList_toList,
      Fields.contains_eq_false hkeys, read_target, map_error_ok, ok_bind]
    rfl
  · refine ⟨hd.context, ?_, hd.close.closed, rfl⟩
    rw [Fields.insert_entries hkeys, hd.close.references]

theorem reads_references {context : List (String × Value)} {refs done : List (String × String)}
    (h : ∀ e ∈ refs, isName e.1 = true) (hnodup : ((done ++ refs).map Prod.fst).Nodup) :
    Reads (refs.map fun e => referenceLine e.1 e.2) (fun d => d.Holds context done [] none)
      (fun d => d.Holds context (done ++ refs) [] none) := by
  induction refs generalizing done with
  | nil =>
    rw [List.append_nil]
    exact .nil
  | cons e rest ih =>
    obtain ⟨key, target⟩ := e
    have happend : done ++ (key, target) :: rest = done ++ [(key, target)] ++ rest := by simp
    have hnew : key ∉ done.map Prod.fst :=
      Fields.new_key (f := ⟨done, hnodup.sublist (by simp)⟩) (g := ⟨_, hnodup⟩) rfl
    have hrest := ih (fun e he => h e (List.mem_cons_of_mem _ he)) (by rwa [← happend])
    rw [happend]
    exact (reads_reference (h (key, target) (by simp)) hnew).append hrest

theorem suffix_letter {t : ColumnType} {letter : Char} (h : t.suffix? = some letter) :
    ColumnType.ofSuffix? letter = some t ∧ isControl letter = false ∧ letter ≠ '|' := by
  cases t <;> cases h <;> exact ⟨rfl, by decide, by decide⟩

/-- A column is written as its name, with the letter of its type if that has one. -/
theorem column_text_cases (c : Column) :
    (c.type = .string ∧ columnText c = c.name.toList) ∨
      ∃ letter, c.type.suffix? = some letter ∧ columnText c = c.name.toList ++ '%' :: [letter] := by
  rw [columnText]
  cases c.type with
  | string => exact .inl ⟨rfl, List.append_nil _⟩
  | _ => exact .inr ⟨_, rfl, rfl⟩

theorem read_column {c : Column} (h : isName c.name = true) :
    readColumn (columnText c) = .ok c := by
  have hname : isNameText c.name.toList = true := h
  have hpercent : '%' ∉ c.name.toList := (name_word h).not_mem (by decide)
  rw [readColumn]
  rcases column_text_cases c with ⟨htype, htext⟩ | ⟨letter, hs, htext⟩
  · rw [htext, split_once_bare hpercent]
    simp only [pure_bind, hname, String.ofList_toList, if_true, ← htype]
    rfl
  · rw [htext, split_once_append hpercent]
    simp only [(suffix_letter hs).1, pure_bind, hname, String.ofList_toList, if_true]
    rfl

theorem column_text_plain {c : Column} (h : isName c.name = true) :
    columnText c ≠ [] ∧ NoControl (columnText c) ∧ '|' ∉ columnText c := by
  have hword := name_word h
  have hbar : '|' ∉ c.name.toList := hword.not_mem (by decide)
  rcases column_text_cases c with ⟨_, htext⟩ | ⟨letter, hs, htext⟩
  · rw [htext]
    exact ⟨hword.1, hword.no_control, hbar⟩
  · obtain ⟨_, hcontrol, hletter⟩ := suffix_letter hs
    rw [htext]
    refine ⟨by simp, hword.no_control.append (.cons (by decide) (.cons hcontrol ?_)), ?_⟩
    · simp [NoControl]
    · simp [hbar, Ne.symm hletter]

/-- A name before the parenthesis keeps a heading from looking like another line. -/
theorem heading_no_colon {id rest : List Char} (hne : id ≠ []) (h : ':' ∉ id) :
    ':' ∉ (id ++ '(' :: rest).take 2 := by
  match id with
  | [] => exact absurd rfl hne
  | [c] => simpa using h
  | c :: d :: cs =>
    simp only [List.mem_cons, not_or] at h
    simpa using ⟨h.1, h.2.1⟩

/-- What stands between the parentheses of a heading. -/
theorem schema_text {s : Section} (hs : s.Lawful) :
    NoControl (join ['|'] (s.columns.map columnText)) ∧
      join ['|'] (s.columns.map columnText) ≠ [] ∧
      (splitOn '|' (join ['|'] (s.columns.map columnText))).mapM readColumn = .ok s.columns := by
  have hplain : ∀ t ∈ s.columns.map columnText, t ≠ [] ∧ NoControl t ∧ '|' ∉ t := by
    intro t ht
    obtain ⟨c, hc, rfl⟩ := List.mem_map.mp ht
    exact column_text_plain (hs.columnsNamed c hc)
  have hcolumns : s.columns.map columnText ≠ [] := by
    intro hnil
    apply hs.stored
    simp [Section.storedWidth, Section.storedColumns, List.map_eq_nil_iff.mp hnil]
  refine ⟨.join (by unfold NoControl; decide) fun t ht => (hplain t ht).2.1, ?_, ?_⟩
  · apply join_induction (P := (· ≠ [])) hcolumns fun t ht => (hplain t ht).1
    intro a b ha _
    simp [ha]
  · rw [split_on_join hcolumns fun t ht => (hplain t ht).2.2]
    exact mapM_read fun c hc => read_column (hs.columnsNamed c hc)

theorem heading_line_eq (s : Section) : headingLine s =
    '#' :: (s.id.toList ++ '(' :: (join ['|'] (s.columns.map columnText) ++ [')'])) := by
  simp [headingLine]

theorem heading_no_control {s : Section} (hs : s.Lawful) :
    NoControl (s.id.toList ++ '(' :: (join ['|'] (s.columns.map columnText) ++ [')'])) := by
  have hschema := (schema_text hs).1
  exact (name_word hs.named).no_control.append
    (.cons (by decide) (hschema.append (by unfold NoControl; decide)))

/-- A heading opens its section, without rows as yet. -/
theorem reads_heading {s : Section} (hs : s.Lawful) {context : List (String × Value)}
    {references : List (String × String)} {closed : List Section} {current : Option Section}
    (hnew : s.id ∉ (closed ++ current.toList).map Section.id) :
    Reads [headingLine s] (fun d => d.Holds context references closed current)
      (fun d => d.Holds context references (closed ++ current.toList) (some { s with rows := [] })) := by
  apply Reads.line
  intro n d hd
  have hid := name_word hs.named
  have hname : isNameText s.id.toList = true := hs.named
  obtain ⟨_, hne, hread⟩ := schema_text hs
  have hfresh : (d.close.placed.any fun p => p.table.id == s.id) = false := by
    apply List.any_eq_false.mpr
    intro p hp heq
    apply hnew
    have hplaced := hd.close.placed
    rw [Option.toList_none, List.append_nil] at hplaced
    rw [← hplaced, ← eq_of_beq heq]
    exact List.mem_map_of_mem (List.mem_map_of_mem hp)
  refine ⟨{ d.close with current := some ⟨n, ⟨s.id, s.columns, []⟩⟩ }, ?_, ?_⟩
  · rw [heading_line_eq, add_heading_line (heading_no_control hs)
      (heading_no_colon hid.1 (hid.not_mem (by decide))), Draft.openSection]
    simp only [split_once_append (hid.not_mem (by decide : isWordChar '(' = false)), hname,
      String.ofList_toList, dropLast?, List.getLast?_concat, List.dropLast_concat, if_true,
      List.isEmpty_eq_false_iff.mpr hne, hfresh, hread]
    rfl
  · exact ⟨hd.context, hd.references, hd.close.closed, rfl⟩

theorem read_cells {columns : List Column} {row : Row} {n : Nat}
    (hlength : row.length = columns.length)
    (h : ∀ p ∈ columns.zip row, p.2.Lawful (some p.1.type)) :
    (columns.zip ((columns.zip row).map fun p => cellText p.1.type p.2)).mapM (fun p =>
      (readCell p.1.type p.2).mapError (Failure.parse n <| .cell p.1.name ·)) = .ok row := by
  induction columns generalizing row with
  | nil =>
    rw [List.eq_nil_of_length_eq_zero hlength]
    rfl
  | cons c cs ih =>
    cases row with
    | nil => cases hlength
    | cons v vs =>
      have hrest := ih (by simpa using hlength)
        (fun p hp => h p (List.mem_cons_of_mem _ hp))
      have hcell := (cell_value (h (c, v) (by simp))).2
      simp only [List.zip_cons_cons, List.map_cons, List.mapM_cons, hcell, hrest, map_error_ok,
        ok_bind]
      rfl

/-- The fields of a row's line are its cells, one for each stored column. -/
theorem row_fields {s : Section} (hs : s.storedWidth ≠ 0) {row : Row} (hrow : s.LawfulRow row) :
    Piece [] ['#'] (rowLine s row) ∧
      splitQuoted '|' (rowLine s row) =
        .ok ((s.storedColumns.zip row).map fun p => cellText p.1.type p.2) ∧
      ((s.storedColumns.zip row).map fun p => cellText p.1.type p.2).length =
        s.storedColumns.length := by
  have hline : rowLine s row =
      join ['|'] ((s.storedColumns.zip row).map fun p => cellText p.1.type p.2) := rfl
  have hlength : ((s.storedColumns.zip row).map fun p => cellText p.1.type p.2).length =
      s.storedColumns.length := by
    have hwidth : row.length = s.storedColumns.length := hrow.width
    simp [hwidth]
  have hpieces : ∀ t ∈ (s.storedColumns.zip row).map fun p => cellText p.1.type p.2,
      Piece ['|'] ['#'] t := by
    intro t ht
    obtain ⟨p, hp, rfl⟩ := List.mem_map.mp ht
    exact (cell_value (hrow.cells p hp)).1
  rw [hline]
  generalize ((s.storedColumns.zip row).map fun p => cellText p.1.type p.2) = cells
    at hlength hpieces
  have hne : cells ≠ [] := by
    rintro rfl
    exact hs hlength.symm
  refine ⟨?_, Piece.split_join (by decide) (by decide) hne hpieces, hlength⟩
  apply Piece.join (by decide) (by decide) (by decide) hne
  exact fun t ht => (hpieces t ht).mono (by simp) fun c hc => hc

/-- A row goes to the end of the open section. -/
theorem reads_row {s : Section} (hs : s.storedWidth ≠ 0) {row : Row} (hrow : s.LawfulRow row)
    {context : List (String × Value)} {references : List (String × String)}
    {closed : List Section} (done : List Row) :
    Reads [rowLine s row]
      (fun d => d.Holds context references closed (some { s with rows := done }))
      (fun d => d.Holds context references closed (some { s with rows := done ++ [row] })) := by
  apply Reads.line
  intro n d hd
  obtain ⟨hpiece, hsplit, hlength⟩ := row_fields hs hrow
  obtain ⟨p, hp, htable⟩ := Option.map_eq_some_iff.mp hd.current
  have hcolumns : p.table.storedColumns = s.storedColumns := by rw [htable]; rfl
  refine ⟨{ d with current := some { p with
    table := { p.table with rows := p.table.rows ++ [row] } } }, ?_, ?_⟩
  · rw [add_row_line hpiece, Draft.addRow]
    simp only [hp, hsplit, map_error_ok, ok_bind, hcolumns, hlength, ne_eq, not_true_eq_false,
      if_false]
    rw [read_cells (n := n) hrow.width hrow.cells]
    rfl
  · refine ⟨hd.context, hd.references, hd.closed, ?_⟩
    simp [htable]

theorem reads_rows {s : Section} (hs : s.storedWidth ≠ 0) {rows : List Row}
    (hrows : ∀ row ∈ rows, s.LawfulRow row) {context : List (String × Value)}
    {references : List (String × String)} {closed : List Section} (done : List Row) :
    Reads (rows.map (rowLine s))
      (fun d => d.Holds context references closed (some { s with rows := done }))
      (fun d => d.Holds context references closed (some { s with rows := done ++ rows })) := by
  induction rows generalizing done with
  | nil =>
    rw [List.append_nil]
    exact .nil
  | cons row rest ih =>
    have hrest := ih (fun r hr => hrows r (List.mem_cons_of_mem _ hr)) (done ++ [row])
    rw [List.append_assoc, List.singleton_append] at hrest
    exact (reads_row hs (hrows row (by simp)) done).append hrest

theorem reads_section {s : Section} (hs : s.Lawful) {context : List (String × Value)}
    {references : List (String × String)} {closed : List Section} {current : Option Section}
    (hnew : s.id ∉ (closed ++ current.toList).map Section.id) :
    Reads (sectionLines s) (fun d => d.Holds context references closed current)
      (fun d => d.Holds context references (closed ++ current.toList) (some s)) :=
  (reads_heading hs hnew).append (reads_rows hs.stored hs.rows [])

/-- Sections are read in their order; the last of them stays open. -/
theorem reads_sections {sections : List Section} (hs : ∀ s ∈ sections, s.Lawful)
    {context : List (String × Value)} {references : List (String × String)}
    {closed : List Section} {current : Option Section}
    (hnodup : ((closed ++ current.toList ++ sections).map Section.id).Nodup) :
    Reads (sections.flatMap sectionLines) (fun d => d.Holds context references closed current)
      (fun d => d.context.entries = context ∧ d.references.entries = references ∧
        d.placed.map Placed.table = closed ++ current.toList ++ sections) := by
  induction sections generalizing closed current with
  | nil =>
    intro n d hd
    refine ⟨d, rfl, hd.context, hd.references, ?_⟩
    rw [hd.placed, List.append_nil]
  | cons s rest ih =>
    have hsplit : closed ++ current.toList ++ s :: rest =
        closed ++ current.toList ++ (some s).toList ++ rest := by simp
    have hnew : s.id ∉ (closed ++ current.toList).map Section.id := by
      rw [List.map_append, List.map_cons, List.nodup_append] at hnodup
      exact fun hm => hnodup.2.2 _ hm _ (by simp) rfl
    rw [List.flatMap_cons, hsplit]
    rw [hsplit] at hnodup
    exact (reads_section (hs s (by simp)) hnew).append
      (ih (fun t ht => hs t (List.mem_cons_of_mem _ ht)) hnodup)

/-- The lines of a document take the empty draft to one that holds the document. -/
theorem reads_document {d : Document} (hd : d.Lawful) {refs : References}
    (hrefs : ∀ e ∈ refs.entries, isName e.1 = true) :
    Reads (documentLines d refs) (fun e => e.Holds [] [] [] none)
      (fun e => e.document = d ∧ e.references = refs) := by
  have hsections := @reads_sections d.sections hd.sections d.context.entries refs.entries [] none
    hd.sectionsDiffer
  have hall := ((reads_context hd.context).append (reads_references hrefs refs.nodup)).append
    hsections
  intro n e he
  obtain ⟨e', hrun, hcontext, hreferences, hplaced⟩ := hall n e he
  refine ⟨e', hrun, ?_, Fields.eq_of_entries hreferences⟩
  rw [Draft.document, hplaced, Fields.eq_of_entries hcontext]
  rfl

theorem document_lines_no_control {d : Document} (hd : d.Lawful) {refs : References}
    (hrefs : ∀ e ∈ refs.entries, isName e.1 = true) :
    ∀ l ∈ documentLines d refs, NoControl l := by
  intro l hl
  simp only [documentLines, List.mem_append, List.mem_map, List.mem_flatMap] at hl
  rcases hl with (hl | ⟨e, he, rfl⟩) | ⟨s, hs, hl⟩
  · by_cases hempty : d.context.entries = []
    · simp [Fields.isEmpty, hempty] at hl
    · rw [if_neg (by simp [Fields.isEmpty, hempty])] at hl
      rw [List.mem_singleton.mp hl]
      exact .append (by unfold NoControl; decide) (context_fields hd.context hempty).1
  · rw [referenceLine, List.append_assoc]
    exact .append (by unfold NoControl; decide) (reference_no_control (hrefs e he) e.2)
  · have hlawful := hd.sections s hs
    rcases List.mem_cons.mp hl with rfl | hl
    · rw [heading_line_eq]
      exact .cons (by decide) (heading_no_control hlawful)
    · obtain ⟨row, hrow, rfl⟩ := List.mem_map.mp hl
      exact (row_fields hlawful.stored (hlawful.rows row hrow)).1.noControl

theorem bad_references_nil {refs : References} :
    badReferences refs = [] ↔ ∀ k ∈ refs.keys, isName k = true := by
  simp only [badReferences, List.flatMap_eq_nil_iff, name_violations_nil]

/-- A valid document is written, with references under names. -/
theorem write_ok {d : Document} {refs : References} (hd : d.isValid = true)
    (hrefs : ∀ k ∈ refs.keys, isName k = true) :
    write d refs = .ok (textOfLines (documentLines d refs)) := by
  rw [write, Document.requireValid, if_pos hd, ok_bind, if_pos (bad_references_nil.mpr hrefs)]

/-- What is written is read back, with its references. -/
theorem read_of_write {d : Document} {refs : References} {text : String}
    (h : write d refs = .ok text) : readWithReferences text = .ok (d, refs) := by
  rw [write, Document.requireValid] at h
  split at h
  · rename_i hvalid
    rw [ok_bind] at h
    split at h
    · rename_i hbad
      cases h
      have hlawful := Document.is_valid_iff.mp hvalid
      have hentries : ∀ e ∈ refs.entries, isName e.1 = true :=
        fun e he => bad_references_nil.mp hbad e.1 (List.mem_map_of_mem he)
      obtain ⟨e, hrun, hdocument, hreferences⟩ :=
        reads_document hlawful hentries 1 {} Draft.holds_empty
      rw [readWithReferences, textOfLines, String.toList_ofList,
        lines_text (document_lines_no_control hlawful hentries), readLines, numbered_eq, hrun,
        ok_bind, Draft.finish, hdocument, Document.checkRead, Document.violations_nil.mpr hlawful,
        hreferences]
      rfl
    · cases h
  · cases h

/-- A valid document is written, with references under names, and is read back as it was: the same
context in the same order, the same sections with their columns and rows, and the same references. -/
theorem compact_round_trip (d : Document) (refs : References) (hd : d.isValid = true)
    (hrefs : ∀ k ∈ refs.keys, isName k = true) :
    ∃ text, write d refs = .ok text ∧ readWithReferences text = .ok (d, refs) :=
  ⟨_, write_ok hd hrefs, read_of_write (write_ok hd hrefs)⟩

def shelfReferences : References :=
  ⟨[("base", " x|y"), ("a.b", "")], by decide⟩

theorem compact_round_trip_shelf :
    shelf.isValid = true ∧ (∀ k ∈ shelfReferences.keys, isName k = true) ∧
      ∃ text, write shelf shelfReferences = .ok text ∧
        readWithReferences text = .ok (shelf, shelfReferences) :=
  ⟨by decide, by decide, compact_round_trip shelf shelfReferences (by decide) (by decide)⟩

end DocForms.Compact
