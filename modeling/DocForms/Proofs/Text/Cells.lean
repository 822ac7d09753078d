import DocForms.Proofs.Text.Pieces

namespace DocForms.Text

/-- A text that a scan takes for one cell: no two spaces stand outside quotation marks, none at the end,
and the scan ends outside the marks. -/
def OneCell : Quoting → List Char → Prop
  | q, [] => q = .plain
  | q, [c] => c ≠ ' ' ∧ q.next c = .plain
  | q, c :: d :: cs => ¬(q = .plain ∧ c = ' ' ∧ d = ' ') ∧ OneCell (q.next c) (d :: cs)

theorem OneCell.tail {q : Quoting} {c : Char} {cs : List Char} (h : OneCell q (c :: cs)) :
    OneCell (q.next c) cs := by
  cases cs with
  | nil => exact h.2
  | cons d ds => exact h.2

theorem OneCell.append {q : Quoting} {s t : List Char} (hs : OneCell q s)
    (ht : OneCell .plain t) : OneCell q (s ++ t) := by
  match s with
  | [] =>
    cases hs
    exact ht
  | [c] =>
    cases t with
    | nil => exact hs
    | cons d ds =>
      refine ⟨fun h => hs.1 h.2.1, ?_⟩
      rw [hs.2]
      exact ht
  | c :: d :: cs => exact ⟨hs.1, hs.2.append ht⟩

/-- A comma and a space may stand between two parts of a cell. -/
theorem OneCell.comma {s t : List Char} (hs : OneCell .plain s) (ht : OneCell .plain t)
    (hfirst : ∃ c cs, t = c :: cs ∧ c ≠ ' ') : OneCell .plain (s ++ [',', ' '] ++ t) := by
  obtain ⟨c, cs, rfl, hc⟩ := hfirst
  rw [List.append_assoc]
  apply hs.append
  refine ⟨by simp, ?_, ?_⟩
  · exact fun h => hc h.2.2
  · exact ht

theorem Inside.one_cell {q : Quoting} {s : List Char} (h : Inside q s) :
    OneCell q (s ++ ['"']) := by
  induction s generalizing q with
  | nil =>
    cases h
    exact ⟨by decide, rfl⟩
  | cons c cs ih =>
    have hrest := ih h.2
    cases hcs : cs ++ ['"'] with
    | nil => simp at hcs
    | cons d ds =>
      rw [hcs] at hrest
      rw [List.cons_append, hcs]
      exact ⟨fun hq => h.1 hq.1, hrest⟩

theorem quote_one_cell (s : List Char) : OneCell .plain (quote s) := by
  have hbody := (body_inside s).one_cell
  cases hcs : s.flatMap escapedChar ++ ['"'] with
  | nil => simp at hcs
  | cons d ds =>
    rw [hcs] at hbody
    rw [quote, List.cons_append, hcs]
    exact ⟨by simp, hbody⟩

/-- Spaces do not come in twos. -/
def NoGap : List Char → Prop
  | [] => True
  | [c] => c ≠ ' '
  | c :: d :: cs => ¬(c = ' ' ∧ d = ' ') ∧ NoGap (d :: cs)

theorem NoGap.one_cell {s : List Char} (h : NoGap s) (hq : '"' ∉ s) : OneCell .plain s := by
  match s with
  | [] => rfl
  | [c] =>
    simp only [List.mem_singleton] at hq
    exact ⟨h, next_plain (Ne.symm hq)⟩
  | c :: d :: cs =>
    simp only [List.mem_cons, not_or] at hq
    refine ⟨fun hc => h.1 hc.2, ?_⟩
    rw [next_plain (Ne.symm hq.1)]
    exact h.2.one_cell (by simp [hq.2])

theorem no_gap_of_no_space {s : List Char} (h : ' ' ∉ s) : NoGap s := by
  match s with
  | [] => trivial
  | [c] =>
    simp only [List.mem_singleton] at h
    exact Ne.symm h
  | c :: d :: cs =>
    simp only [List.mem_cons, not_or] at h
    exact ⟨fun hc => h.1 hc.1.symm, no_gap_of_no_space (by simp [h.2])⟩

theorem Word.one_cell {s : List Char} (h : Word s) : OneCell .plain s :=
  (no_gap_of_no_space (h.not_mem (by decide))).one_cell (h.not_mem (by decide))

/-- A gap after a cell ends it. -/
theorem OneCell.cells_append {q : Quoting} {s : List Char} (h : OneCell q s) (rest : List Char) :
    cellsFrom (.cell q) (s ++ ' ' :: ' ' :: rest) = (cellsFrom .gap rest).map (s :: ·) := by
  match s with
  | [] =>
    cases h
    rw [List.nil_append, cellsFrom, if_pos ⟨rfl, rfl, rfl⟩]
  | [c] =>
    rw [List.singleton_append, cellsFrom, if_neg (fun hc => h.1 hc.2.1), h.2, cellsFrom,
      if_pos ⟨rfl, rfl, rfl⟩, map_map]
    rfl
  | c :: d :: cs =>
    rw [List.cons_append, List.cons_append, cellsFrom, if_neg h.1, ← List.cons_append,
      h.2.cells_append rest, map_map]
    rfl

theorem OneCell.cells {q : Quoting} {s : List Char} (h : OneCell q s) :
    cellsFrom (.cell q) s = .ok [s] := by
  match s with
  | [] =>
    cases h
    rfl
  | [c] =>
    rw [cellsFrom, h.2]
    rfl
  | c :: d :: cs =>
    rw [cellsFrom, if_neg h.1, h.2.cells]
    rfl

theorem cells_gap_blanks (k : Nat) (s : List Char) :
    cellsFrom .gap (List.replicate k ' ' ++ s) = cellsFrom .gap s := by
  induction k with
  | zero => rfl
  | succ k ih => rw [List.replicate_succ, List.cons_append, cellsFrom, if_pos rfl, ih]

/-- A text that fills a cell. -/
structure Cell (s : List Char) : Prop where
  bounded : Bounded s
  oneCell : OneCell .plain s

theorem space_is_blank : isBlank ' ' = true := by decide

theorem Cell.first {s : List Char} (h : Cell s) : ∃ c cs, s = c :: cs ∧ c ≠ ' ' := by
  obtain ⟨c, cs, hs, hc⟩ := h.bounded.first
  refine ⟨c, cs, hs, ?_⟩
  rintro rfl
  rw [space_is_blank] at hc
  cases hc

/-- Cells with gaps between them. -/
inductive Spaced : List (List Char) → List Char → Prop
  | last {s : List Char} : Cell s → Spaced [s] s
  | cons {s t : List Char} {cells : List (List Char)} (k : Nat) : Cell s → Spaced cells t →
      Spaced (s :: cells) (s ++ List.replicate (k + 2) ' ' ++ t)

theorem Spaced.bounded {cells : List (List Char)} {t : List Char} (h : Spaced cells t) :
    Bounded t := by
  induction h with
  | last hs => exact hs.bounded
  | cons k hs _ ih => exact hs.bounded.append ih _

theorem Spaced.cells_from {cells : List (List Char)} {t : List Char} (h : Spaced cells t) :
    cellsFrom .gap t = .ok cells := by
  induction h with
  | last hs =>
    obtain ⟨c, cs, rfl, hc⟩ := hs.first
    rw [cellsFrom, if_neg hc, hs.oneCell.tail.cells]
    rfl
  | @cons s t cells k hs _ ih =>
    obtain ⟨c, cs, rfl, hc⟩ := hs.first
    have hgap : c :: cs ++ List.replicate (k + 2) ' ' ++ t =
        c :: (cs ++ ' ' :: ' ' :: (List.replicate k ' ' ++ t)) := by
      simp [List.replicate_succ]
    rw [hgap, cellsFrom, if_neg hc, hs.oneCell.tail.cells_append, cells_gap_blanks, ih]
    rfl

theorem trim_start_blanks {t : List Char} (h : Bounded t) (k : Nat) :
    trimStart (List.replicate k ' ' ++ t) = t := by
  have hdrop := trim_start_bounded h
  rw [trimStart] at hdrop ⊢
  rw [List.dropWhile_append_of_pos, hdrop]
  intro c hc
  rw [(List.mem_replicate.mp hc).2]
  decide

/-- Cells are told apart by the gaps between them, wherever the line begins. -/
theorem Spaced.split {cells : List (List Char)} {t : List Char} (h : Spaced cells t) (k : Nat) :
    splitOnGaps (List.replicate k ' ' ++ t) = .ok cells := by
  rw [splitOnGaps, trim, trim_start_blanks h.bounded, trim_end_bounded h.bounded, h.cells_from]

/-- The cells of a line take no more characters than the line has. -/
theorem cells_length {scan : CellScan} {s : List Char} {cells : List (List Char)}
    (h : cellsFrom scan s = .ok cells) : cells.flatten.length ≤ s.length := by
  have hcons {scan' : CellScan} {c : Char} {rest : List Char} {cells : List (List Char)}
      (ih : ∀ {fields}, cellsFrom scan' rest = .ok fields → fields.flatten.length ≤ rest.length)
      (h : (cellsFrom scan' rest).map (consFirst c) = .ok cells) :
      cells.flatten.length ≤ rest.length + 1 := by
    obtain ⟨fields, hfields, rfl⟩ := map_eq_ok.mp h
    have hrest := ih hfields
    cases fields with
    | nil => exact Nat.succ_le_succ (Nat.zero_le _)
    | cons field fields => exact Nat.succ_le_succ hrest
  fun_induction cellsFrom scan s generalizing cells with
  | case1 =>
    cases h
    exact Nat.le_refl 0
  | case2 cs ih => exact Nat.le_succ_of_le (ih h)
  | case3 c cs hc ih => exact hcons ih h
  | case4 =>
    cases h
    exact Nat.le_refl 0
  | case5 q hq => cases h
  | case6 q c ih => exact hcons ih h
  | case7 q c d cs hgap ih =>
    obtain ⟨fields, hfields, rfl⟩ := map_eq_ok.mp h
    have hrest := ih hfields
    rw [List.flatten_cons, List.nil_append, List.length_cons, List.length_cons]
    omega
  | case8 q c d cs hgap ih => exact hcons ih h

theorem cons_first_single {c : Char} {s : List Char} {fields : List (List Char)}
    (h : consFirst c fields = [c :: s]) : fields = [s] ∨ (fields = [] ∧ s = []) := by
  cases fields with
  | nil =>
    cases h
    exact .inr ⟨rfl, rfl⟩
  | cons field fields =>
    cases h
    exact .inl rfl

/-- A scan that gives back a text as its only cell meets no gap in it. -/
theorem one_cell_of_cells {q : Quoting} {s : List Char} (hlast : ∀ c ∈ s.getLast?, c ≠ ' ')
    (h : cellsFrom (.cell q) s = .ok [s]) : OneCell q s := by
  match s with
  | [] =>
    rw [cellsFrom] at h
    split at h
    · assumption
    · cases h
  | [c] =>
    obtain ⟨fields, hfields, hc⟩ := map_eq_ok.mp h
    rw [cellsFrom] at hfields
    split at hfields
    · rename_i hq
      exact ⟨hlast c rfl, hq⟩
    · cases hfields
  | c :: d :: cs =>
    rw [cellsFrom] at h
    split at h
    · obtain ⟨fields, -, hfields⟩ := map_eq_ok.mp h
      cases hfields
    · rename_i hgap
      obtain ⟨fields, hfields, hc⟩ := map_eq_ok.mp h
      rcases cons_first_single hc with rfl | ⟨-, hnil⟩
      · exact ⟨hgap, one_cell_of_cells (fun x hx => hlast x (by simpa using hx)) hfields⟩
      · cases hnil

/-- The texts that are read back as one cell are those that fill a cell. -/
theorem split_self_iff {s : List Char} : splitOnGaps s = .ok [s] ↔ Cell s := by
  constructor
  · intro h
    have hlength := cells_length h
    rw [List.flatten_singleton] at hlength
    have htrim := trim_of_length hlength
    rw [splitOnGaps, htrim] at h
    have hbounded : Bounded s := by
      rw [← htrim]
      apply bounded_trim
      rw [htrim]
      rintro rfl
      cases h
    refine ⟨hbounded, ?_⟩
    obtain ⟨c, cs, rfl, hc⟩ := hbounded.first
    obtain ⟨ds, d, hd, hdb⟩ := hbounded.last
    have hlast : ∀ x ∈ (c :: cs).getLast?, x ≠ ' ' := by
      rw [hd, List.getLast?_concat]
      rintro x ⟨⟩ rfl
      rw [space_is_blank] at hdb
      cases hdb
    have hspace : c ≠ ' ' := by
      rintro rfl
      rw [space_is_blank] at hc
      cases hc
    -- Behind its first character the text is scanned as the rest of a cell.
    apply one_cell_of_cells hlast
    rw [cellsFrom, if_neg hspace] at h
    cases cs with
    | nil => exact h
    | cons d ds => rwa [cellsFrom, if_neg fun hgap => hspace hgap.2.1]
  · intro h
    exact (Spaced.last h).split 0

end DocForms.Text
