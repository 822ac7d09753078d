import DocForms.Document.Basic

namespace DocForms

/-- How a whole row is made up: the stored values in their turn and, under an auto-id column, the number of
the row. -/
inductive Spliced (index : Nat) : List Column → Row → Row → Prop
  | nil : Spliced index [] [] []
  | stored {c : Column} {cs : List Column} {v : Value} {vs full : Row} (hc : c.type.isStored = true)
    (h : Spliced index cs vs full) : Spliced index (c :: cs) (v :: vs) (v :: full)
  | auto {c : Column} {cs : List Column} {vs full : Row} (hc : c.type.isStored = false)
    (h : Spliced index cs vs full) :
    Spliced index (c :: cs) vs (.int (autoIdValue index) :: full)

/-- A row with a value for each stored column is made a whole row. -/
theorem splice_row (index : Nat) {columns : List Column} {row : Row}
    (h : row.length = (columns.filter (·.type.isStored)).length) :
    ∃ full, Section.spliceRow index columns row = some full ∧ Spliced index columns row full := by
  induction columns generalizing row with
  | nil =>
    rw [List.length_eq_zero_iff.mp h]
    exact ⟨[], rfl, .nil⟩
  | cons c cs ih =>
    unfold Section.spliceRow
    cases hc : c.type.isStored with
    | true =>
      rw [List.filter_cons, if_pos hc] at h
      cases row with
      | nil => cases h
      | cons v vs =>
        obtain ⟨full, hsplice, hspliced⟩ := ih (Nat.succ.inj h)
        exact ⟨v :: full, by simp [hsplice], .stored hc hspliced⟩
    | false =>
      rw [List.filter_cons, if_neg (by simp [hc])] at h
      obtain ⟨full, hsplice, hspliced⟩ := ih h
      exact ⟨.int (autoIdValue index) :: full, by simp [hsplice], .auto hc hspliced⟩

namespace Spliced
variable {index : Nat} {columns : List Column} {row full : Row}

theorem length (h : Spliced index columns row full) : full.length = columns.length := by
  induction h with
  | nil => rfl
  | stored _ _ ih => exact congrArg (· + 1) ih
  | auto _ _ ih => exact congrArg (· + 1) ih

/-- Under the stored columns stand the stored values. -/
theorem stored_cells (h : Spliced index columns row full) :
    (columns.zip full).filter (·.1.type.isStored) =
      (columns.filter (·.type.isStored)).zip row := by
  induction h with
  | nil => rfl
  | stored hc _ ih =>
    rw [List.zip_cons_cons, List.filter_cons, if_pos hc, List.filter_cons, if_pos hc, ih,
      List.zip_cons_cons]
  | auto hc _ ih =>
    rw [List.zip_cons_cons, List.filter_cons, if_neg (by simp [hc]), List.filter_cons,
      if_neg (by simp [hc]), ih]

/-- Under the others stands a number. -/
theorem auto_cells (h : Spliced index columns row full) :
    ∀ p ∈ columns.zip full, p.1.type.isStored = false → p.2 = .int (autoIdValue index) := by
  induction h with
  | nil => exact nofun
  | stored hc _ ih =>
    refine List.forall_mem_cons.mpr ⟨fun hstored => ?_, ih⟩
    rw [hc] at hstored
    cases hstored
  | auto _ _ ih => exact List.forall_mem_cons.mpr ⟨fun _ => rfl, ih⟩

/-- The value under a column: the stored one in its turn, or the number of the row. -/
theorem at_column (h : Spliced index columns row full) {i : Nat} {c : Column}
    (hc : columns[i]? = some c) : full[i]? =
      if c.type.isStored then row[((columns.take i).filter (·.type.isStored)).length]?
      else some (.int (autoIdValue index)) := by
  induction h generalizing i with
  | nil => cases hc
  | stored hfirst _ ih =>
    cases i with
    | zero =>
      cases hc
      simp [hfirst]
    | succ i => simp [hfirst, ih hc]
  | auto hfirst _ ih =>
    cases i with
    | zero =>
      cases hc
      simp [hfirst]
    | succ i => simp [hfirst, ih hc]

end Spliced

/-- A stored column among the stored ones. -/
theorem stored_at {columns : List Column} {k : Nat} {c : Column} (hc : columns[k]? = some c)
    (hstored : c.type.isStored = true) :
    (columns.filter (·.type.isStored))[((columns.take k).filter (·.type.isStored)).length]? =
      some c := by
  induction columns generalizing k with
  | nil => simp at hc
  | cons first rest ih =>
    cases k with
    | zero =>
      cases hc
      simp [hstored]
    | succ k =>
      have hrest := ih hc
      cases hfirst : first.type.isStored <;> simp [hfirst, hrest]

/-- Where every column is stored, a row has its values under all columns. -/
theorem splice_all_stored (index : Nat) {columns : List Column} {row : Row}
    (hall : ∀ c ∈ columns, c.type.isStored = true) (h : row.length = columns.length) :
    Section.spliceRow index columns row = some row := by
  induction columns generalizing row with
  | nil =>
    rw [List.length_eq_zero_iff.mp h]
    rfl
  | cons c cs ih =>
    cases row with
    | nil => cases h
    | cons v vs =>
      rw [Section.spliceRow, if_pos (hall c (by simp)),
        ih (fun c' hc' => hall c' (List.mem_cons_of_mem _ hc')) (Nat.succ.inj h)]
      rfl

end DocForms
