import DocForms.Layout.Records
import DocForms.Proofs.Layout.Columns

namespace DocForms.Layout
open Text

/-- A paragraph without its line numbers. -/
abbrev ParagraphText := List Char × List (List Char)

def Paragraph.texts (p : Paragraph) : ParagraphText :=
  (p.head.2, p.body.map Prod.snd)

theorem count_blanks_skip {blank ls : List Line} (h : ∀ l ∈ blank, isBlankLine l.2 = true)
    (n : Nat) : countBlanks n (blank ++ ls) = countBlanks (n + blank.length) ls := by
  induction blank generalizing n with
  | nil => rfl
  | cons l rest ih =>
    rw [List.cons_append, countBlanks, if_pos (h l (by simp)),
      ih (fun m hm => h m (List.mem_cons_of_mem _ hm)), List.length_cons, Nat.add_right_comm,
      Nat.add_assoc]

theorem count_blanks_cons {l : Line} (h : isBlankLine l.2 = false) (n : Nat) (ls : List Line) :
    countBlanks n (l :: ls) = (n, l) :: countBlanks 0 ls := by
  rw [countBlanks, if_neg (by simp [h])]

theorem count_blanks_nil {blank : List Line} (h : ∀ l ∈ blank, isBlankLine l.2 = true) (n : Nat) :
    countBlanks n blank = [] := by
  have hskip : countBlanks n (blank ++ []) = _ := count_blanks_skip h n
  rw [List.append_nil] at hskip
  rw [hskip]
  rfl

/-- The number of empty lines before the first record does not matter. -/
theorem assemble_first (m n : Nat) (l : Line) (rest : List (Nat × Line)) :
    assemble ((m, l) :: rest) = assemble ((n, l) :: rest) := by
  cases rest <;> rfl

theorem records_last {l : Line} {blank : List Line} (hl : isBlankLine l.2 = false)
    (hb : ∀ m ∈ blank, isBlankLine m.2 = true) : records (l :: blank) = [[⟨l, []⟩]] := by
  rw [records, count_blanks_cons hl, count_blanks_nil hb]
  rfl

theorem records_cons {l next : Line} {blank ls : List Line} (hl : isBlankLine l.2 = false)
    (hb : ∀ m ∈ blank, isBlankLine m.2 = true) (hnext : isBlankLine next.2 = false) :
    records (l :: (blank ++ next :: ls)) = consLine l blank.length (records (next :: ls)) := by
  rw [records, count_blanks_cons hl, count_blanks_skip hb, count_blanks_cons hnext, assemble,
    records, count_blanks_cons hnext, Nat.zero_add, assemble_first]

/-- Lines, with whatever numbers, are cut into these records. -/
def Shows (rs : List (List ParagraphText)) (ts : List (List Char)) : Prop :=
  ∀ ls : List Line, ls.map Prod.snd = ts → (records ls).map (List.map Paragraph.texts) = rs

theorem blank_lines {ls : List Line} {ts : List (List Char)} (h : ls.map Prod.snd = ts)
    (hts : ∀ t ∈ ts, isBlankLine t = true) : ∀ l ∈ ls, isBlankLine l.2 = true :=
  fun l hl => hts l.2 (h ▸ List.mem_map_of_mem hl)

theorem Shows.last {t : List Char} {tail : List (List Char)} (ht : isBlankLine t = false)
    (htail : ∀ s ∈ tail, isBlankLine s = true) : Shows [[(t, [])]] (t :: tail) := by
  intro ls hls
  obtain ⟨l, rest, rfl, rfl, hrest⟩ := List.map_eq_cons_iff.mp hls
  rw [records_last ht (blank_lines hrest htail)]
  rfl

/-- A line before the first record, which begins after `blank.length` empty lines. -/
theorem Shows.cons {t t' : List Char} {body ts blank : List (List Char)} {ps : List ParagraphText}
    {rs : List (List ParagraphText)} (ht : isBlankLine t = false)
    (hblank : ∀ s ∈ blank, isBlankLine s = true) (ht' : isBlankLine t' = false)
    (h : Shows (((t', body) :: ps) :: rs) (t' :: ts)) :
    Shows
      (if blank.length = 0 then ((t, t' :: body) :: ps) :: rs
        else if blank.length = 1 then ((t, []) :: (t', body) :: ps) :: rs
        else [(t, [])] :: ((t', body) :: ps) :: rs)
      (t :: (blank ++ t' :: ts)) := by
  intro ls hls
  obtain ⟨l, rest, rfl, rfl, hrest⟩ := List.map_eq_cons_iff.mp hls
  obtain ⟨bs, rest', rfl, hbs, hrest'⟩ := List.map_eq_append_iff.mp hrest
  obtain ⟨next, rest'', rfl, rfl, hrest''⟩ := List.map_eq_cons_iff.mp hrest'
  have hrecords := h (next :: rest'') hrest'
  rw [records_cons ht (blank_lines hbs hblank) ht', ← List.length_map Prod.snd, hbs]
  obtain ⟨r, R, hR, hr, hrs⟩ := List.map_eq_cons_iff.mp hrecords
  obtain ⟨p, P, rfl, hp, hps⟩ := List.map_eq_cons_iff.mp hr
  obtain ⟨hhead, hbody⟩ := Prod.mk.inj hp
  rw [hR, consLine]
  split
  · simp [Paragraph.texts, hbody, hps, hrs, hhead]
  split
  · simp [Paragraph.texts, hbody, hps, hrs, hhead]
  · simp [Paragraph.texts, hbody, hps, hrs, hhead]

/-- What may follow a line: the line is the last of a paragraph before further ones. -/
def Continues (ts : List (List Char)) (ps : List ParagraphText) (rs : List (List ParagraphText)) :
    Prop :=
  ∀ t, isBlankLine t = false → Shows (((t, []) :: ps) :: rs) (t :: ts)

def NoBlanks (p : ParagraphText) : Prop :=
  ∀ t ∈ p.1 :: p.2, isBlankLine t = false

theorem Continues.paragraph {ts : List (List Char)} {ps : List ParagraphText}
    {rs : List (List ParagraphText)} (h : Continues ts ps rs) {p : ParagraphText}
    (hp : NoBlanks p) : Shows ((p :: ps) :: rs) (p.1 :: p.2 ++ ts) := by
  obtain ⟨t, body⟩ := p
  induction body generalizing t with
  | nil => exact h t (hp t (by simp))
  | cons b rest ih =>
    have hb : isBlankLine b = false := hp b (by simp)
    have hrest := ih b fun u hu => hp u (List.mem_cons_of_mem _ hu)
    have hblank : ∀ s ∈ [], isBlankLine s = true := by simp
    exact Shows.cons (hp t (by simp)) hblank hb hrest

theorem blank_empty {blank : List (List Char)} (h : ∀ t ∈ blank, t = []) :
    ∀ t ∈ blank, isBlankLine t = true := by
  intro t ht
  rw [h t ht]
  rfl

theorem stack_map_cons {α β : Type} (sep : List α) (f : β → List α) (a b : β) (rest : List β) :
    stack sep ((a :: b :: rest).map f) = f a ++ sep ++ stack sep ((b :: rest).map f) :=
  stack_cons_cons sep (f a) (f b) (rest.map f)

/-- The lines of a record. -/
def recordLines (r : List ParagraphText) : List (List Char) :=
  stack [[]] (r.map fun p => p.1 :: p.2)

theorem record_lines_cons (p : ParagraphText) (ps : List ParagraphText) :
    ∃ ts, recordLines (p :: ps) = p.1 :: ts := by
  cases ps with
  | nil => exact ⟨p.2, by rw [recordLines, List.map_singleton, stack_single]⟩
  | cons q qs =>
    rw [recordLines, stack_map_cons]
    exact ⟨_, rfl⟩

/-- The paragraphs of a record are set apart by an empty line. -/
theorem Continues.record {ts : List (List Char)} {rs : List (List ParagraphText)}
    (h : Continues ts [] rs) {p : ParagraphText} {ps : List ParagraphText}
    (hp : ∀ q ∈ p :: ps, NoBlanks q) : Shows ((p :: ps) :: rs) (recordLines (p :: ps) ++ ts) := by
  induction ps generalizing p with
  | nil =>
    rw [recordLines, List.map_singleton, stack_single]
    exact h.paragraph (hp p (by simp))
  | cons q qs ih =>
    have hrest := ih (p := q) fun x hx => hp x (List.mem_cons_of_mem _ hx)
    obtain ⟨us, hus⟩ := record_lines_cons q qs
    rw [recordLines, stack_map_cons, List.append_assoc, List.append_assoc, ← recordLines, hus]
    rw [hus] at hrest
    apply Continues.paragraph _ (hp p (by simp))
    intro t ht
    have hblank : ∀ s ∈ [[]], isBlankLine s = true := blank_empty (by simp)
    exact Shows.cons ht hblank (hp q (by simp) q.1 (by simp)) hrest

theorem stack_records_cons (p : ParagraphText) (ps : List ParagraphText)
    (rs : List (List ParagraphText)) :
    ∃ ts, stack [[], []] (((p :: ps) :: rs).map recordLines) = p.1 :: ts := by
  obtain ⟨us, hus⟩ := record_lines_cons p ps
  cases rs with
  | nil => exact ⟨us, by rw [List.map_singleton, stack_single, hus]⟩
  | cons r' rs =>
    rw [stack_map_cons, hus]
    exact ⟨_, rfl⟩

/-- Records are set apart by two empty lines, and what empty lines follow the last do not matter. -/
theorem shows_stack {r : List ParagraphText} {rs : List (List ParagraphText)}
    (h : ∀ x ∈ r :: rs, x ≠ [] ∧ ∀ p ∈ x, NoBlanks p) {tail : List (List Char)}
    (htail : ∀ t ∈ tail, t = []) :
    Shows (r :: rs) (stack [[], []] ((r :: rs).map recordLines) ++ tail) := by
  induction rs generalizing r with
  | nil =>
    obtain ⟨hne, hr⟩ := h r (by simp)
    obtain ⟨p, ps, rfl⟩ := List.exists_cons_of_ne_nil hne
    rw [List.map_singleton, stack_single]
    exact Continues.record (fun t ht => .last ht (blank_empty htail)) hr
  | cons r' rs ih =>
    obtain ⟨hne, hr⟩ := h r (by simp)
    obtain ⟨p, ps, rfl⟩ := List.exists_cons_of_ne_nil hne
    have hrest := ih (r := r') fun x hx => h x (List.mem_cons_of_mem _ hx)
    obtain ⟨hne', hr'⟩ := h r' (by simp)
    obtain ⟨p', ps', rfl⟩ := List.exists_cons_of_ne_nil hne'
    obtain ⟨us, hus⟩ := stack_records_cons p' ps' rs
    rw [stack_map_cons, List.append_assoc, List.append_assoc, hus]
    rw [hus] at hrest
    apply Continues.record _ hr
    intro t ht
    have hblank : ∀ s ∈ [[], []], isBlankLine s = true := blank_empty (by simp)
    exact Shows.cons ht hblank (hr' p' (by simp) p'.1 (by simp)) hrest

/-- How a table is written: every row of a range of columns on a line from which its cells are read. -/
structure Lined (groups : List (Nat × Nat)) (width : Nat)
    (line : Nat × Nat → List (List Char) → List Char) (rows : List (List (List Char))) : Prop where
  cover : Covers 0 groups width
  width : ∀ row ∈ rows, row.length = width
  cells : ∀ g ∈ groups, ∀ row ∈ rows, splitOnGaps (line g row) = .ok (slice g row)

theorem read_cells_ok {l : Line} {cells : List (List Char)} (h : splitOnGaps l.2 = .ok cells) :
    readCells l = .ok cells := by
  rw [readCells, h]
  rfl

theorem read_under_all {groups : List (Nat × Nat)} {width : Nat}
    {line : Nat × Nat → List (List Char) → List Char} {titles : List (List Char)}
    {rows : List (List (List Char))} (h : Lined groups width line (titles :: rows))
    {g : Nat × Nat} (hg : g ∈ groups) {body : List Line}
    (hbody : body.map Prod.snd = rows.map (line g)) :
    ∃ below, body.mapM (readUnder (slice g titles)) = .ok below ∧
      below.map Prod.snd = rows.map (slice g) := by
  induction rows generalizing body with
  | nil =>
    rw [List.map_eq_nil_iff.mp hbody]
    exact ⟨[], rfl, rfl⟩
  | cons row rest ih =>
    obtain ⟨l, ls, rfl, hl, hls⟩ := List.map_eq_cons_iff.mp hbody
    have hrest : Lined groups width line (titles :: rest) := by
      have hsub : ∀ r ∈ titles :: rest, r ∈ titles :: row :: rest := by
        intro r hr
        simp only [List.mem_cons] at hr ⊢
        exact hr.imp id .inr
      exact ⟨h.cover, fun r hr => h.width r (hsub r hr), fun g hg r hr => h.cells g hg r (hsub r hr)⟩
    obtain ⟨below, hbelow, htexts⟩ := ih hrest hls
    have hcells : readCells l = .ok (slice g row) :=
      read_cells_ok (by rw [hl, h.cells g hg row (by simp)])
    have hlength : (slice g row).length = (slice g titles).length := by
      rw [slice_length, slice_length, h.width row (by simp), h.width titles (by simp)]
    refine ⟨(l.1, slice g row) :: below, ?_, by rw [List.map_cons, htexts]; rfl⟩
    rw [List.mapM_cons, readUnder, hcells, ok_bind, if_pos hlength, hbelow]
    rfl

/-- The groups of columns read so far. -/
structure Table.Holds (t : Table) (header : List (List Char)) (rows : List (List (List Char))) :
    Prop where
  header : t.header = header
  rows : t.rows.map Prod.snd = rows

theorem map_snd_zip_with {α β : Type} (as bs : List (α × List β)) :
    (as.zipWith (fun a b => (a.1, a.2 ++ b.2)) bs).map Prod.snd =
      (as.map Prod.snd).zipWith (· ++ ·) (bs.map Prod.snd) := by
  rw [List.map_zipWith, List.zipWith_map]

theorem zip_with_map_append {α β : Type} (f g : α → List β) (as : List α) :
    (as.map f).zipWith (· ++ ·) (as.map g) = as.map fun a => f a ++ g a := by
  induction as with
  | nil => rfl
  | cons a rest ih => simp [ih]

section
variable {groups : List (Nat × Nat)} {width : Nat}
variable {line : Nat × Nat → List (List Char) → List Char} {titles : List (List Char)}
variable {rows : List (List (List Char))}

/-- What is read of a paragraph: the cells of its heading, and those of each line under it. -/
theorem read_paragraph (h : Lined groups width line (titles :: rows)) {g : Nat × Nat} (hg : g ∈ groups)
    {p : Paragraph} (hp : p.texts = (line g titles, rows.map (line g))) :
    ∃ below, readCells p.head = .ok (slice g titles) ∧
      p.body.mapM (readUnder (slice g titles)) = .ok below ∧
      below.map Prod.snd = rows.map (slice g) ∧ p.body.length = rows.length := by
  obtain ⟨hhead, hbody⟩ := Prod.mk.inj hp
  obtain ⟨below, hbelow, htexts⟩ := read_under_all h hg hbody
  refine ⟨below, read_cells_ok ?_, hbelow, htexts, by simpa using congrArg List.length hbody⟩
  rw [hhead, h.cells g hg titles (by simp)]

theorem read_group (h : Lined groups width line (titles :: rows)) {g : Nat × Nat} (hg : g ∈ groups)
    {p : Paragraph} (hp : p.texts = (line g titles, rows.map (line g))) :
    ∃ t, readGroup p = .ok t ∧ t.Holds (slice g titles) (rows.map (slice g)) := by
  obtain ⟨below, hcells, hbelow, htexts, -⟩ := read_paragraph h hg hp
  refine ⟨⟨slice g titles, below⟩, ?_, rfl, htexts⟩
  rw [readGroup, hcells, ok_bind, hbelow]
  rfl

theorem add_group (h : Lined groups width line (titles :: rows)) {g : Nat × Nat} (hg : g ∈ groups)
    {p : Paragraph} (hp : p.texts = (line g titles, rows.map (line g))) {t : Table}
    {header : List (List Char)} {f : List (List Char) → List (List Char)}
    (ht : t.Holds header (rows.map f)) :
    ∃ t', addGroup t p = .ok t' ∧
      t'.Holds (header ++ slice g titles) (rows.map fun row => f row ++ slice g row) := by
  obtain ⟨below, hcells, hbelow, htexts, hbody⟩ := read_paragraph h hg hp
  have hlength : p.body.length = t.rows.length := by
    have hrows := congrArg List.length ht.rows
    simp only [List.length_map] at hrows
    omega
  refine ⟨⟨t.header ++ slice g titles, t.rows.zipWith (fun a b => (a.1, a.2 ++ b.2)) below⟩, ?_,
    by rw [ht.header], ?_⟩
  · rw [addGroup, hcells, ok_bind, if_pos hlength, hbelow]
    rfl
  · rw [map_snd_zip_with, ht.rows, htexts, zip_with_map_append]

/-- The groups of a record are put side by side in their order. -/
theorem add_groups (h : Lined groups width line (titles :: rows)) {gs : List (Nat × Nat)}
    (hgs : ∀ g ∈ gs, g ∈ groups) {ps : List Paragraph}
    (hps : ps.map Paragraph.texts = gs.map (fun g => (line g titles, rows.map (line g))))
    {t : Table} {header : List (List Char)} {f : List (List Char) → List (List Char)}
    (ht : t.Holds header (rows.map f)) :
    ∃ t', ps.foldlM addGroup t = .ok t' ∧
      t'.Holds (header ++ (gs.map (slice · titles)).flatten)
        (rows.map fun row => f row ++ (gs.map (slice · row)).flatten) := by
  induction gs generalizing ps t header f with
  | nil =>
    rw [List.map_eq_nil_iff.mp hps]
    exact ⟨t, rfl, by simpa using ht⟩
  | cons g gs ih =>
    obtain ⟨p, ps, rfl, hp, hps⟩ := List.map_eq_cons_iff.mp hps
    obtain ⟨t', hadd, ht'⟩ := add_group h (hgs g (by simp)) hp ht
    obtain ⟨t'', hfold, ht''⟩ := ih (fun g hg => hgs g (List.mem_cons_of_mem _ hg)) hps ht'
    refine ⟨t'', ?_, by simpa using ht''⟩
    rw [List.foldlM_cons, hadd, ok_bind, hfold]

theorem read_record (h : Lined groups width line (titles :: rows)) (hne : groups ≠ [])
    {r : Record}
    (hr : r.map Paragraph.texts = groups.map (fun g => (line g titles, rows.map (line g)))) :
    ∃ t, readRecord r = .ok t ∧ t.Holds titles rows := by
  obtain ⟨g, gs, hgroups⟩ := List.exists_cons_of_ne_nil hne
  rw [hgroups] at hr
  obtain ⟨p, ps, rfl, hp, hps⟩ := List.map_eq_cons_iff.mp hr
  obtain ⟨t, hread, ht⟩ := read_group h (by simp [hgroups]) hp
  obtain ⟨t', hfold, ht'⟩ := add_groups h (fun g hg => by simp [hgroups, hg]) hps ht
  have hall : ∀ row ∈ titles :: rows, slice g row ++ (gs.map (slice · row)).flatten = row := by
    intro row hrow
    have hcover : Covers 0 groups row.length := by
      rw [h.width row hrow]
      exact h.cover
    have hflat := hcover.slices
    rwa [hgroups, List.map_cons, List.flatten_cons, List.drop_zero] at hflat
  refine ⟨t', by rw [readRecord, hread, ok_bind, hfold], ht'.header.trans (hall titles (by simp)),
    ht'.rows.trans ?_⟩
  calc rows.map (fun row => slice g row ++ (gs.map (slice · row)).flatten)
      = rows.map id := List.map_congr_left fun row hrow => hall row (List.mem_cons_of_mem _ hrow)
    _ = rows := List.map_id rows

end

end DocForms.Layout
