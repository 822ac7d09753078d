import DocForms.Proofs.Buffer.Checks

namespace DocForms

/-- Whether a read found no bytes at its place. -/
def BufferFault.isPastEnd : BufferFault → Bool
  | .overrun _ | .truncatedHeader | .truncatedSection => true
  | _ => false

namespace Buffer

/-- A check that never reads past the end. -/
def Inside {α : Type} (x : Except BufferFault α) : Prop :=
  ∀ fault, x = .error fault → fault.isPastEnd = false

section

variable {α β : Type}

theorem Inside.ok (a : α) : Inside (.ok a) := nofun

theorem Inside.bind {x : Except BufferFault α} {f : α → Except BufferFault β} (hx : Inside x)
    (hf : ∀ a, x = .ok a → Inside (f a)) : Inside (x >>= f) := by
  cases x with
  | error fault => exact fun fault' h => hx fault' (by cases h; rfl)
  | ok a => exact hf a rfl

theorem Inside.require {p : Prop} [Decidable p] {fault : BufferFault}
    (h : fault.isPastEnd = false) : Inside (require p fault) := by
  intro fault' h'
  by_cases hp : p
  · simp [Buffer.require, hp] at h'
  · simp [Buffer.require, hp, refuse] at h'
    exact h' ▸ h

theorem Inside.or_refuse {fault : BufferFault} {a? : Option α}
    (h : a?.isSome = false → fault.isPastEnd = false) : Inside (orRefuse fault a?) := by
  intro fault' h'
  cases a? with
  | some a => cases h'
  | none =>
    cases h'
    exact h rfl

theorem Inside.forM {as : List α} {check : α → Except BufferFault Unit}
    (h : ∀ a ∈ as, Inside (check a)) : Inside (as.forM check) := by
  induction as with
  | nil => exact Inside.ok ()
  | cons a rest ih =>
    exact (h a (by simp)).bind fun _ _ => ih fun b hb => h b (List.mem_cons_of_mem _ hb)

theorem Inside.mapM {as : List α} {step : α → Except BufferFault β}
    (h : ∀ a ∈ as, Inside (step a)) : Inside (as.mapM step) := by
  induction as with
  | nil => exact Inside.ok []
  | cons a rest ih =>
    rw [List.mapM_cons]
    exact (h a (by simp)).bind fun _ _ =>
      (ih fun b hb => h b (List.mem_cons_of_mem _ hb)).bind fun _ _ => Inside.ok _

end

theorem slice_is_some {b : ByteArray} {position count : Nat} :
    (slice? b position count).isSome = true ↔ position + count ≤ b.size := by
  by_cases h : position + count ≤ b.size <;> simp [slice?, h]

theorem number_is_some {b : ByteArray} {position count : Nat} :
    (numberAt? b position count).isSome = true ↔ position + count ≤ b.size := by
  rw [numberAt?, Option.isSome_map, slice_is_some]

variable {v : View} {position : Nat}

theorem View.TableAt.inside {start count size i : Nat} (h : v.TableAt start count size)
    (hi : i < count) : start + i * size + size ≤ v.heapStart := by
  have hstep : (i + 1) * size ≤ count * size := Nat.mul_le_mul_right size hi
  have hlast := h.last
  rw [Nat.succ_mul] at hstep
  omega

theorem check_name_inside : Inside (checkName v position) := Inside.require rfl

theorem check_value_inside {type? : Option ColumnType} : Inside (checkValue v type? position) :=
  (Inside.or_refuse fun _ => rfl).bind fun _ _ => Inside.require rfl

theorem require_table_inside {fault : BufferFault} (h : fault.isPastEnd = false)
    {start count size : Nat} : Inside (requireTable v fault start count size) := Inside.require h

theorem check_context_entry_inside : Inside (checkContextEntry v position) :=
  check_name_inside.bind fun _ _ => check_value_inside

/-- The code of a column stands between its name and the end of its entry. -/
theorem check_column_inside (h : position + columnEntrySize ≤ v.buffer.size) :
    Inside (checkColumn v position) := by
  refine check_name_inside.bind fun _ _ => ?_
  refine (Inside.or_refuse fun hnone => ?_).bind fun _ _ => Inside.or_refuse fun _ => rfl
  simp [columnEntrySize, slotSize] at h hnone
  omega

theorem check_cell_inside {types : List ColumnType} {start index rows : Nat}
    (h : index < rows * types.length) : Inside (checkCell v types start index) := by
  refine (Inside.or_refuse fun hnone => ?_).bind fun _ _ => check_value_inside
  have hpos : 0 < types.length := by
    apply Nat.pos_of_ne_zero
    intro hzero
    simp [hzero] at h
  simp at hnone
  have hlt := Nat.mod_lt index hpos
  omega

theorem check_section_inside (hheap : v.heapStart ≤ v.buffer.size)
    (h : position + sectionEntrySize ≤ v.buffer.size) : Inside (checkSection v position) := by
  have hfield : ∀ offset ≤ 28,
      Inside (orRefuse .truncatedSection (numberAt? v.buffer (position + offset) 4)) := by
    intro offset hoffset
    refine Inside.or_refuse fun hnone => ?_
    have hsome := @number_is_some v.buffer (position + offset) 4
    simp [hnone, sectionEntrySize] at hsome h
    omega
  refine check_name_inside.bind fun _ _ => ?_
  refine (hfield 16 (by decide)).bind fun columnsStart _ => ?_
  refine (hfield 20 (by decide)).bind fun columnCount _ => ?_
  refine (hfield 24 (by decide)).bind fun rowsStart _ => ?_
  refine (hfield 28 (by decide)).bind fun rowCount _ => ?_
  refine (require_table_inside rfl).bind fun _ hcolumns => ?_
  have htable := require_table_ok.mp hcolumns
  refine (Inside.mapM (forall_places.mpr fun i hi => ?_)).bind fun types _ => ?_
  · have hroom := htable.inside hi
    exact check_column_inside (by omega)
  refine (require_table_inside rfl).bind fun _ _ => ?_
  exact Inside.forM fun i hi => check_cell_inside (List.mem_range.mp hi)

theorem check_structure_inside (hheap : v.heapStart ≤ v.buffer.size) :
    Inside (checkStructure v) := by
  refine (require_table_inside rfl).bind fun _ _ => ?_
  refine (Inside.forM fun _ _ => check_context_entry_inside).bind fun _ _ => ?_
  refine (require_table_inside rfl).bind fun _ hsections => ?_
  have htable := require_table_ok.mp hsections
  refine Inside.forM (forall_places.mpr fun i hi => ?_)
  have hroom := htable.inside hi
  exact check_section_inside hheap (by omega)

/-- The size of the header, checked first, leaves room for every read of a field. -/
theorem view_inside (b : ByteArray) (fingerprintOf : ByteArray → Fingerprint) :
    Inside (view? b fingerprintOf) := by
  refine (Inside.require rfl).bind fun _ hlong => ?_
  have hsize : 64 ≤ b.size := require_ok.mp hlong
  have hbytes : ∀ position count, position + count ≤ 64 → Inside (headerBytes b position count) := by
    intro position count hp
    refine Inside.or_refuse fun hnone => ?_
    have hsome := @slice_is_some b position count
    simp [hnone] at hsome
    omega
  have hfield : ∀ position, position + 4 ≤ 64 → Inside (headerField b position) := by
    intro position hp
    refine Inside.or_refuse fun hnone => ?_
    have hsome := @number_is_some b position 4
    simp [hnone] at hsome
    omega
  refine (hbytes 0 4 (by decide)).bind fun _ _ => ?_
  refine (Inside.require rfl).bind fun _ _ => ?_
  refine (Inside.require rfl).bind fun _ _ => ?_
  refine (hbytes 6 2 (by decide)).bind fun _ _ => ?_
  refine (Inside.require rfl).bind fun _ _ => ?_
  refine (hfield 60 (by decide)).bind fun _ _ => ?_
  refine (Inside.require rfl).bind fun _ _ => ?_
  refine (hbytes 8 32 (by decide)).bind fun _ _ => ?_
  refine (Inside.or_refuse fun hnone => ?_).bind fun _ _ => ?_
  · rw [sliceFrom?, if_pos (Nat.le_trans (by decide) hsize)] at hnone
    cases hnone
  refine (Inside.require rfl).bind fun _ _ => ?_
  refine (hfield 56 (by decide)).bind fun _ _ => ?_
  refine (Inside.require rfl).bind fun _ hheap => ?_
  refine (hfield 40 (by decide)).bind fun _ _ => ?_
  refine (hfield 44 (by decide)).bind fun _ _ => ?_
  refine (hfield 48 (by decide)).bind fun _ _ => ?_
  refine (hfield 52 (by decide)).bind fun _ _ => ?_
  exact (check_structure_inside (require_ok.mp hheap).2).bind fun _ _ => Inside.ok _

end Buffer
end DocForms
