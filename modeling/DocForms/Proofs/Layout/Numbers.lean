import DocForms.Proofs.Layout.RoundTrip
import DocForms.Proofs.Text.Lines

namespace DocForms.Layout
open Text

/-- The lines on which the rows of a record begin. -/
def firstBody (r : Record) : List Line :=
  (r.head?.map Paragraph.body).getD []

/-- The lines on which the rows of a table begin. -/
def rowLines (ls : List Line) : List Line :=
  (records ls).flatMap firstBody

def recordBody (r : Record) : List Line :=
  r.flatMap fun p => p.head :: p.body

theorem cons_line_body (l : Line) (blanks : Nat) (rs : List Record) :
    (consLine l blanks rs).flatMap recordBody = l :: rs.flatMap recordBody := by
  match rs with
  | [] => rfl
  | [] :: rs => rfl
  | (p :: ps) :: rs =>
    rw [consLine]
    split
    · rfl
    split
    · rfl
    · rfl

/-- Records have all lines that are not blank, in their order. -/
theorem assemble_body (ls : List (Nat × Line)) :
    (assemble ls).flatMap recordBody = ls.map Prod.snd := by
  fun_induction assemble ls with
  | case1 => rfl
  | case2 => rfl
  | case3 blanks l blanks' next rest ih =>
    rw [cons_line_body, ih]
    rfl

theorem mem_count_blanks {n : Nat} {ls : List Line} {p : Nat × Line} (h : p ∈ countBlanks n ls) :
    p.2 ∈ ls := by
  fun_induction countBlanks n ls with
  | case1 => cases h
  | case2 n l ls hl ih => exact List.mem_cons_of_mem _ (ih h)
  | case3 n l ls hl ih =>
    rcases List.mem_cons.mp h with rfl | h
    · exact List.mem_cons_self
    · exact List.mem_cons_of_mem _ (ih h)

theorem mem_row_lines {ls : List Line} {l : Line} (h : l ∈ rowLines ls) : l ∈ ls := by
  obtain ⟨r, hr, hl⟩ := List.mem_flatMap.mp h
  have hbody : l ∈ recordBody r := by
    cases r with
    | nil => cases hl
    | cons p ps => exact List.mem_flatMap.mpr ⟨p, by simp, List.mem_cons_of_mem _ hl⟩
  have hmem : l ∈ (countBlanks 0 ls).map Prod.snd := by
    rw [← assemble_body]
    exact List.mem_flatMap.mpr ⟨r, hr, hbody⟩
  obtain ⟨p, hp, rfl⟩ := List.mem_map.mp hmem
  exact mem_count_blanks hp

section Read
variable {t t' : Table} {header : List (List Char)}

theorem read_under_numbers {body : List Line} {rows : List (Nat × List (List Char))}
    (h : body.mapM (readUnder header) = .ok rows) : rows.map Prod.fst = body.map Prod.fst := by
  induction body generalizing rows with
  | nil =>
    cases h
    rfl
  | cons l ls ih =>
    rw [List.mapM_cons] at h
    obtain ⟨row, hrow, hrest⟩ := bind_eq_ok.mp h
    obtain ⟨rows', hrows, hcons⟩ := bind_eq_ok.mp hrest
    cases hcons
    rw [List.map_cons, List.map_cons, ih hrows]
    obtain ⟨cells, -, hunder⟩ := bind_eq_ok.mp hrow
    split at hunder
    · cases hunder
      rfl
    · cases hunder

theorem read_group_numbers {p : Paragraph} (h : readGroup p = .ok t) :
    t.rows.map Prod.fst = p.body.map Prod.fst := by
  obtain ⟨header, -, hrest⟩ := bind_eq_ok.mp h
  obtain ⟨rows, hrows, ht⟩ := bind_eq_ok.mp hrest
  cases ht
  exact read_under_numbers hrows

/-- Further groups of columns leave the numbers of the rows. -/
theorem add_group_numbers {p : Paragraph} (h : addGroup t p = .ok t') :
    t'.rows.map Prod.fst = t.rows.map Prod.fst := by
  obtain ⟨header, -, hrest⟩ := bind_eq_ok.mp h
  split at hrest
  · rename_i hcount
    obtain ⟨rows, hrows, ht⟩ := bind_eq_ok.mp hrest
    cases ht
    have hlength := congrArg List.length (read_under_numbers hrows)
    simp only [List.length_map] at hlength
    have hfst : (t.rows.zipWith (fun a b => (a.1, a.2 ++ b.2)) rows).map Prod.fst =
        ((t.rows.zip rows).map Prod.fst).map Prod.fst := by
      rw [List.map_zipWith, List.zip, List.map_zipWith, List.map_zipWith]
    rw [hfst, List.map_fst_zip]
    omega
  · cases hrest

theorem read_record_numbers {r : Record} (h : readRecord r = .ok t) :
    t.rows.map Prod.fst = (firstBody r).map Prod.fst := by
  cases r with
  | nil =>
    cases h
    rfl
  | cons p ps =>
    obtain ⟨first, hfirst, hrest⟩ := bind_eq_ok.mp h
    exact foldlM_keeps (P := fun t => t.rows.map Prod.fst = p.body.map Prod.fst)
      (fun s q s' hs hadd => (add_group_numbers hadd).trans hs) (read_group_numbers hfirst) hrest

theorem add_record_numbers {r : Record} (h : addRecord t r = .ok t') :
    t'.rows.map Prod.fst = t.rows.map Prod.fst ++ (firstBody r).map Prod.fst := by
  obtain ⟨below, hbelow, hrest⟩ := bind_eq_ok.mp h
  split at hrest
  · cases hrest
    rw [List.map_append, read_record_numbers hbelow]
  · cases hrest

/-- Rows have the numbers of the lines that they begin on. -/
theorem parse_numbers {ls : List Line} (h : parse ls = .ok t) :
    t.rows.map Prod.fst = (rowLines ls).map Prod.fst := by
  rw [parse] at h
  rw [rowLines]
  cases hrecords : records ls with
  | nil =>
    rw [hrecords] at h
    cases h
    rfl
  | cons r rs =>
    rw [hrecords] at h
    obtain ⟨first, hfirst, hrest⟩ := bind_eq_ok.mp h
    have hstart := read_record_numbers hfirst
    rw [List.flatMap_cons, List.map_append, ← hstart]
    clear hrecords hstart hfirst h
    induction rs generalizing first with
    | nil =>
      cases hrest
      simp
    | cons r' rs ih =>
      obtain ⟨next, hnext, hrest⟩ := bind_eq_ok.mp hrest
      rw [ih next hrest, add_record_numbers hnext, List.flatMap_cons, List.map_append,
        List.append_assoc]

end Read

theorem assemble_ne_nil (p : Nat × Line) (ps : List (Nat × Line)) :
    ∃ q qs rs, assemble (p :: ps) = (q :: qs) :: rs := by
  obtain ⟨blanks, l⟩ := p
  cases ps with
  | nil => exact ⟨_, _, _, rfl⟩
  | cons next rest =>
    rw [assemble]
    obtain _ | ⟨_ | ⟨q, qs⟩, rs⟩ := assemble (next :: rest)
    · exact ⟨_, _, _, rfl⟩
    · exact ⟨_, _, _, rfl⟩
    · rw [consLine]
      split
      · exact ⟨_, _, _, rfl⟩
      split
      · exact ⟨_, _, _, rfl⟩
      · exact ⟨_, _, _, rfl⟩

theorem cons_line_append (l : Line) (blanks : Nat) (p : Paragraph) (ps : List Paragraph)
    (rs rs' : List Record) :
    consLine l blanks ((p :: ps) :: rs ++ rs') = consLine l blanks ((p :: ps) :: rs) ++ rs' := by
  simp only [List.cons_append, consLine]
  split
  · rfl
  split
  · rfl
  · rfl

/-- Two blank lines end a record. -/
theorem assemble_append {ls : List (Nat × Line)} (hne : ls ≠ []) {blanks : Nat} (hblanks : 2 ≤ blanks)
    (l : Line) (rest : List (Nat × Line)) :
    assemble (ls ++ (blanks, l) :: rest) = assemble ls ++ assemble ((blanks, l) :: rest) := by
  obtain ⟨q, qs, rs, hrest⟩ := assemble_ne_nil (blanks, l) rest
  induction ls with
  | nil => exact absurd rfl hne
  | cons p ps ih =>
    obtain ⟨n, m⟩ := p
    cases ps with
    | nil =>
      rw [List.singleton_append, assemble, assemble, hrest, consLine, if_neg (by omega),
        if_neg (by omega)]
      rfl
    | cons next ps =>
      have happend := ih (List.cons_ne_nil _ _)
      obtain ⟨k, l'⟩ := next
      obtain ⟨q', qs', rs', hfirst⟩ := assemble_ne_nil (k, l') ps
      rw [List.cons_append, List.cons_append, assemble, ← List.cons_append, happend, assemble, hfirst,
        cons_line_append]

theorem count_blanks_apart {b b' l : Line} (hb : isBlankLine b.2 = true)
    (hb' : isBlankLine b'.2 = true) (hl : isBlankLine l.2 = false) (n : Nat) (ls ms : List Line) :
    ∃ blanks, 2 ≤ blanks ∧ countBlanks n (ls ++ b :: b' :: l :: ms) =
      countBlanks n ls ++ (blanks, l) :: countBlanks 0 ms := by
  induction ls generalizing n with
  | nil =>
    have hskip : countBlanks n ([b, b'] ++ l :: ms) = countBlanks (n + 2) (l :: ms) :=
      count_blanks_skip (by simp [hb, hb']) n
    exact ⟨n + 2, by omega, hskip.trans (count_blanks_cons hl (n + 2) ms)⟩
  | cons m ls ih =>
    rw [List.cons_append, countBlanks, countBlanks]
    split
    · exact ih (n + 1)
    · obtain ⟨blanks, hblanks, hcount⟩ := ih 0
      exact ⟨blanks, hblanks, by rw [hcount, List.cons_append]⟩

theorem records_apart {m b b' l : Line} (hm : isBlankLine m.2 = false) (hb : isBlankLine b.2 = true)
    (hb' : isBlankLine b'.2 = true) (hl : isBlankLine l.2 = false) (ls ms : List Line) :
    records (m :: ls ++ b :: b' :: l :: ms) = records (m :: ls) ++ records (l :: ms) := by
  obtain ⟨blanks, hblanks, hcount⟩ := count_blanks_apart hb hb' hl 0 (m :: ls) ms
  have hne : countBlanks 0 (m :: ls) ≠ [] := by
    rw [count_blanks_cons hm]
    exact List.cons_ne_nil _ _
  rw [records, hcount, assemble_append hne hblanks, records, records, count_blanks_cons hl,
    assemble_first]

theorem count_blanks_start (n : Nat) (ls : List Line) :
    ∀ p ∈ (countBlanks n ls).head?, n ≤ p.1 := by
  fun_induction countBlanks n ls with
  | case1 => exact nofun
  | case2 n l ls hl ih => exact fun p hp => Nat.le_of_succ_le (ih p hp)
  | case3 n l ls hl ih =>
    rintro p ⟨⟩
    exact Nat.le_refl n

/-- The first paragraph has lines of the table from the first on. -/
theorem first_paragraph {l : Line} (hl : isBlankLine l.2 = false) (ls : List Line) :
    ∃ p ps rs, records (l :: ls) = (p :: ps) :: rs ∧ p.head :: p.body <+: l :: ls := by
  induction ls generalizing l with
  | nil => exact ⟨⟨l, []⟩, [], [], records_last hl nofun, List.prefix_rfl⟩
  | cons m ms ih =>
    cases hm : isBlankLine m.2 with
    | false =>
      obtain ⟨p, ps, rs, hrecords, hprefix⟩ := ih hm
      have hcons : records (l :: ([] ++ m :: ms)) = consLine l 0 (records (m :: ms)) :=
        records_cons hl nofun hm
      refine ⟨⟨l, p.head :: p.body⟩, ps, rs, ?_, List.cons_prefix_cons.mpr ⟨rfl, hprefix⟩⟩
      rw [List.nil_append, hrecords] at hcons
      exact hcons
    | true =>
      have halone : [l] <+: l :: m :: ms := ⟨m :: ms, rfl⟩
      have hstart := count_blanks_start 1 ms
      rw [records, count_blanks_cons hl, countBlanks, if_pos hm]
      cases hrest : countBlanks (0 + 1) ms with
      | nil => exact ⟨⟨l, []⟩, [], [], rfl, halone⟩
      | cons next rest =>
        obtain ⟨p, ps, rs, hassemble⟩ := assemble_ne_nil next rest
        have hblanks := hstart next (by rw [hrest]; rfl)
        obtain ⟨blanks, next⟩ := next
        rw [assemble, hassemble, consLine, if_neg (Nat.ne_of_gt hblanks)]
        split
        · exact ⟨⟨l, []⟩, p :: ps, rs, rfl, halone⟩
        · exact ⟨⟨l, []⟩, [], (p :: ps) :: rs, rfl, halone⟩

theorem numbered_of_prefix {n : Nat} {ts : List (List Char)} {ls : List Line}
    (h : ls <+: numberedFrom n ts) : ls = numberedFrom n (ls.map Prod.snd) := by
  induction ls generalizing n ts with
  | nil => rfl
  | cons l ls ih =>
    cases ts with
    | nil =>
      have hnil : l :: ls = [] := List.prefix_nil.mp h
      cases hnil
    | cons t ts =>
      rw [numbered_from_cons] at h
      obtain ⟨rfl, hrest⟩ := List.cons_prefix_cons.mp h
      rw [List.map_cons, numbered_from_cons, ← ih hrest]

/-- The rows of a record begin on the lines after its first heading. -/
theorem row_lines_record (n : Nat) {p : ParagraphText} {ps : List ParagraphText}
    (h : ∀ q ∈ p :: ps, NoBlanks q) :
    rowLines (numberedFrom n (recordLines (p :: ps))) = numberedFrom (n + 1) p.2 := by
  have hshows : Shows [p :: ps] (recordLines (p :: ps)) := by
    have hstack : Shows [p :: ps] (stack [[], []] ([p :: ps].map recordLines) ++ []) :=
      shows_stack (fun x hx => List.mem_singleton.mp hx ▸ ⟨List.cons_ne_nil p ps, h⟩) nofun
    rwa [List.map_singleton, stack_single, List.append_nil] at hstack
  have hrecords := hshows _ (numbered_from_texts n _)
  obtain ⟨ts, hts⟩ := record_lines_cons p ps
  rw [hts, numbered_from_cons] at hrecords ⊢
  have hfirst : isBlankLine p.1 = false := h p (by simp) p.1 (by simp)
  obtain ⟨q, qs, rs, hcut, hprefix⟩ := first_paragraph (l := (n, p.1)) hfirst (numberedFrom (n + 1) ts)
  rw [hcut, List.map_cons, List.cons.injEq, List.map_cons, List.cons.injEq] at hrecords
  obtain ⟨⟨rfl, -⟩, hrest⟩ := hrecords
  have hbody := numbered_of_prefix (List.cons_prefix_cons.mp hprefix).2
  rw [rowLines, hcut, List.map_eq_nil_iff.mp hrest, List.flatMap_singleton]
  exact hbody

theorem row_lines_apart {t u : List Char} (ht : isBlankLine t = false) (hu : isBlankLine u = false)
    (n : Nat) (ts us : List (List Char)) :
    rowLines (numberedFrom n (t :: ts ++ [[], []] ++ u :: us)) =
      rowLines (numberedFrom n (t :: ts)) ++
        rowLines (numberedFrom (n + (t :: ts).length + 2) (u :: us)) := by
  have hsplit : numberedFrom n (t :: ts ++ [[], []] ++ u :: us) =
      (n, t) :: numberedFrom (n + 1) ts ++ (n + (t :: ts).length, []) ::
        (n + (t :: ts).length + 1, []) :: (n + (t :: ts).length + 2, u) ::
          numberedFrom (n + (t :: ts).length + 2 + 1) us := by
    rw [numbered_from_append, numbered_from_append, List.length_append, List.append_assoc,
      numbered_from_cons n t, numbered_from_cons _ u]
    rfl
  rw [hsplit, rowLines, records_apart ht rfl rfl hu, List.flatMap_append, numbered_from_cons n t,
    numbered_from_cons _ u]
  rfl

/-- Where the rows of records begin if the first record begins on line `n`. -/
def rowPlaces (n : Nat) : List (List ParagraphText) → List Line
  | [] => []
  | r :: rs =>
    numberedFrom (n + 1) ((r.head?.map Prod.snd).getD []) ++
      rowPlaces (n + (recordLines r).length + 2) rs

theorem row_lines_stack (n : Nat) {r : List ParagraphText} {rs : List (List ParagraphText)}
    (h : ∀ x ∈ r :: rs, x ≠ [] ∧ ∀ p ∈ x, NoBlanks p) :
    rowLines (numberedFrom n (stack [[], []] ((r :: rs).map recordLines))) = rowPlaces n (r :: rs) := by
  induction rs generalizing r n with
  | nil =>
    obtain ⟨hne, hr⟩ := h r (by simp)
    obtain ⟨p, ps, rfl⟩ := List.exists_cons_of_ne_nil hne
    rw [List.map_singleton, stack_single, row_lines_record n hr, rowPlaces, rowPlaces,
      List.append_nil]
    rfl
  | cons r' rs ih =>
    have hrest := ih (n + (recordLines r).length + 2) fun x hx => h x (List.mem_cons_of_mem _ hx)
    obtain ⟨hne, hr⟩ := h r (by simp)
    obtain ⟨p, ps, rfl⟩ := List.exists_cons_of_ne_nil hne
    obtain ⟨hne', hr'⟩ := h r' (by simp)
    obtain ⟨p', ps', rfl⟩ := List.exists_cons_of_ne_nil hne'
    have hrecord := row_lines_record n hr
    obtain ⟨ts, hts⟩ := record_lines_cons p ps
    obtain ⟨us, hus⟩ := stack_records_cons p' ps' rs
    have hfirst : isBlankLine p.1 = false := hr p (by simp) p.1 (by simp)
    have hnext : isBlankLine p'.1 = false := hr' p' (by simp) p'.1 (by simp)
    rw [rowPlaces, ← hrest, stack_map_cons, hus]
    rw [hts] at hrecord ⊢
    rw [row_lines_apart hfirst hnext, hrecord]
    rfl

theorem numbered_from_map {α : Type} (f : α → List Char) (n : Nat) (as : List α) (k : Nat) :
    numberedFrom (k + n) (as.map f) = (as.zipIdx k).map fun p => (p.2 + n, f p.1) := by
  induction as generalizing k with
  | nil => rfl
  | cons a as ih =>
    rw [List.map_cons, numbered_from_cons, List.zipIdx_cons, List.map_cons, ← ih (k + 1),
      Nat.add_right_comm]

/-- The line on which a row begins. In a table of several groups a row is a record, which takes two lines
for each group and an empty one between them, and two empty lines follow it. -/
def rowLine (groups row : Nat) : Nat :=
  if groups ≤ 1 then row + 2 else row * (3 * groups + 1) + 2

section Places
variable {line : Nat × Nat → List (List Char) → List Char} {titles : List (List Char)}

theorem single_record_length (g : Nat × Nat) (gs : List (Nat × Nat)) (row : List (List Char)) :
    (recordLines ((g :: gs).map fun g => (line g titles, [line g row]))).length =
      3 * gs.length + 2 := by
  rw [recordLines, stack_length]
  simp [Function.comp_def]
  omega

theorem row_places_single (g : Nat × Nat) (gs : List (Nat × Nat)) (rows : List (List (List Char)))
    (k : Nat) :
    rowPlaces (k * (3 * (g :: gs).length + 1) + 1)
        (recordsOf line titles (g :: gs) (rows.map fun row => [row])) =
      (rows.zipIdx k).map fun p => (p.2 * (3 * (g :: gs).length + 1) + 2, line g p.1) := by
  induction rows generalizing k with
  | nil => rfl
  | cons row rows ih =>
    have hnext : k * (3 * (g :: gs).length + 1) + 1 + (3 * gs.length + 2) + 2 =
        (k + 1) * (3 * (g :: gs).length + 1) + 1 := by
      rw [List.length_cons, Nat.succ_mul k]
      omega
    rw [List.zipIdx_cons, List.map_cons, List.map_cons, ← ih (k + 1), ← hnext, ← single_record_length g gs row]
    rfl

/-- Rows begin on the lines of the first group of columns that are reckoned for them. -/
theorem row_places (g : Nat × Nat) (gs : List (Nat × Nat)) (rows : List (List (List Char))) :
    rowPlaces 1 (recordsOf line titles (g :: gs) (recordRows (g :: gs) rows)) =
      rows.zipIdx.map fun p => (rowLine (g :: gs).length p.2, line g p.1) := by
  rw [recordRows]
  split
  · rename_i h
    have hbody : rowPlaces 1 (recordsOf line titles (g :: gs) [rows]) =
        numberedFrom 2 (rows.map (line g)) := by
      rw [recordsOf, List.map_singleton, rowPlaces, rowPlaces, List.append_nil]
      rfl
    have hmap := numbered_from_map (line g) 2 rows 0
    rw [Nat.zero_add] at hmap
    rw [hbody, hmap]
    rcases h with hone | rfl
    · simp only [rowLine, if_pos hone]
    · rfl
  · rename_i h
    have hmany : ¬(g :: gs).length ≤ 1 := fun hone => h (.inl hone)
    have hplaces : rowPlaces (0 * (3 * (g :: gs).length + 1) + 1)
        (recordsOf line titles (g :: gs) (rows.map fun row => [row])) =
        rows.zipIdx.map fun p => (p.2 * (3 * (g :: gs).length + 1) + 2, line g p.1) :=
      row_places_single g gs rows 0
    rw [Nat.zero_mul] at hplaces
    simp only [rowLine, if_neg hmany]
    exact hplaces

end Places

section Written
variable {o : Options} {headings : List Heading} {rows : List (List (List Char))}

theorem row_lines_render (h : Fills headings rows) (hgap : 2 ≤ o.columnGap) {g : Nat × Nat}
    {more : List (Nat × Nat)} (hgroups : groupsOf o headings rows = g :: more) :
    rowLines (numbered (render o headings rows)) = rows.zipIdx.map fun p =>
      (rowLine (groupsOf o headings rows).length p.2,
        groupLine o (columnsOf headings rows) g p.1) := by
  have hcover := groups_cover o headings rows
  have hflat := record_rows_flatten (groupsOf o headings rows) rows
  have hrender := render_records o h.columns rows
  rw [records_lines] at hrender
  rw [hgroups] at hcover hflat hrender ⊢
  have hrecords := h.records hgap hcover (List.cons_ne_nil g more) hflat
  rw [numbered_eq, hrender, ← row_places g more rows]
  cases hrs : recordsOf (groupLine o (columnsOf headings rows)) (headings.map Heading.text) (g :: more)
      (recordRows (g :: more) rows) with
  | nil => rfl
  | cons r rs =>
    rw [hrs] at hrecords
    exact row_lines_stack 1 hrecords

end Written

theorem eq_of_fst_snd {α β γ : Type} {ps : List (α × β)} {as : List γ} {f : γ → α} {g : γ → β}
    (hfst : ps.map Prod.fst = as.map f) (hsnd : ps.map Prod.snd = as.map g) :
    ps = as.map fun a => (f a, g a) := by
  rw [← List.zip_map', ← hfst, ← hsnd, ← List.unzip_fst, ← List.unzip_snd, List.zip_unzip]

/-- A table that was written is read back from its lines: its headings, and its rows in order, each with
the number of the line that shows it in the first group of columns. -/
theorem parse_undoes_render {o : Options} (hgap : 2 ≤ o.columnGap) {headings : List Heading}
    (hne : headings ≠ []) {rows : List (List (List Char))}
    (hwidth : ∀ row ∈ rows, row.length = headings.length)
    (htitles : ∀ h ∈ headings, splitOnGaps h.text = .ok [h.text])
    (hcells : ∀ row ∈ rows, ∀ s ∈ row, splitOnGaps s = .ok [s]) :
    parse (numbered (render o headings rows)) = .ok ⟨headings.map Heading.text,
      rows.zipIdx.map fun p => (rowLine (groupsOf o headings rows).length p.2, p.1)⟩ ∧
    ∃ g more, groupsOf o headings rows = g :: more ∧ ∀ (r : Nat) row, rows[r]? = some row →
      (rowLine (groupsOf o headings rows).length r, groupLine o (columnsOf headings rows) g row) ∈
        numbered (render o headings rows) := by
  have hfills : Fills headings rows :=
    ⟨hne, fun h hh => split_self_iff.mp (htitles h hh), hwidth,
      fun row hrow s hs => split_self_iff.mp (hcells row hrow s hs)⟩
  obtain ⟨g, more, hgroups⟩ := List.exists_cons_of_ne_nil (groups_ne_nil o hne rows)
  have hlines := row_lines_render hfills hgap hgroups
  have htexts : (numberedFrom 1 (render o headings rows)).map Prod.snd =
      render o headings rows ++ [] := by
    rw [numbered_from_texts, List.append_nil]
  have hnone : ∀ t ∈ ([] : List (List Char)), t = [] := nofun
  obtain ⟨t, hread, hheader, hrows⟩ := parse_render hgap hfills hnone htexts
  refine ⟨?_, g, more, hgroups, fun r row hrow => ?_⟩
  · have hnumbers := parse_numbers hread
    rw [← numbered_eq, hlines, List.map_map] at hnumbers
    have htexts : t.rows.map Prod.snd = rows.zipIdx.map Prod.fst := by
      rw [hrows, List.zipIdx_map_fst]
    have hboth : t.rows =
        rows.zipIdx.map fun p => (rowLine (groupsOf o headings rows).length p.2, p.1) :=
      eq_of_fst_snd hnumbers htexts
    rw [numbered_eq, hread, ← hheader, ← hboth]
  · apply mem_row_lines
    rw [hlines]
    exact List.mem_map_of_mem (f := fun p => (rowLine (groupsOf o headings rows).length p.2,
      groupLine o (columnsOf headings rows) g p.1))
      (List.mk_mem_zipIdx_iff_getElem?.mpr hrow)

theorem parse_undoes_render_sites :
    (2 ≤ (⟨12, 2⟩ : Options).columnGap ∧ siteHeadings ≠ [] ∧
      (∀ row ∈ siteRows, row.length = siteHeadings.length) ∧
      (∀ h ∈ siteHeadings, splitOnGaps h.text = .ok [h.text]) ∧
      ∀ row ∈ siteRows, ∀ s ∈ row, splitOnGaps s = .ok [s]) ∧
    parse (numbered (render ⟨12, 2⟩ siteHeadings siteRows)) = .ok ⟨siteHeadings.map Heading.text,
      siteRows.zipIdx.map fun p =>
        (rowLine (groupsOf ⟨12, 2⟩ siteHeadings siteRows).length p.2, p.1)⟩ ∧
    ∃ g more, groupsOf ⟨12, 2⟩ siteHeadings siteRows = g :: more ∧
      ∀ (r : Nat) row, siteRows[r]? = some row →
        (rowLine (groupsOf ⟨12, 2⟩ siteHeadings siteRows).length r,
          groupLine ⟨12, 2⟩ (columnsOf siteHeadings siteRows) g row) ∈
            numbered (render ⟨12, 2⟩ siteHeadings siteRows) := by
  have hwidth : ∀ row ∈ siteRows, row.length = siteHeadings.length := by decide
  have htitles : ∀ h ∈ siteHeadings, splitOnGaps h.text = .ok [h.text] := by decide
  have hcells : ∀ row ∈ siteRows, ∀ s ∈ row, splitOnGaps s = .ok [s] := by decide
  exact ⟨⟨by decide, by decide, hwidth, htitles, hcells⟩,
    parse_undoes_render (by decide) (by decide) hwidth htitles hcells⟩

/-- The first site is told from line 2 on and the second, after two paragraphs and a gap, from line 9 on. -/
example : (siteRows.zipIdx.map fun p =>
    rowLine (groupsOf ⟨12, 2⟩ siteHeadings siteRows).length p.2) = [2, 9] := by decide

end DocForms.Layout
