import DocForms.Proofs.Buffer.Access
import DocForms.Proofs.Document.Fields

namespace DocForms.Buffer

theorem map_m_filter_map {α β : Type} {read : α → Option β} {as : List α}
    (h : ∀ a ∈ as, (read a).isSome = true) : as.mapM read = some (as.filterMap read) := by
  induction as with
  | nil => rfl
  | cons a rest ih =>
    obtain ⟨b, hb⟩ := Option.isSome_iff_exists.mp (h a (by simp))
    rw [List.mapM_cons, hb, ih fun c hc => h c (List.mem_cons_of_mem _ hc),
      List.filterMap_cons_some hb]
    rfl

/-- The values of a row. -/
def View.rowOf (v : View) (s : SectionView) (row : Nat) : Row :=
  ((List.range s.storedWidth).filterMap (v.storedCell? s row)).map v.valueOf

/-- A section as a whole. -/
def View.tableOf (v : View) (s : SectionView) : Section :=
  ⟨s.id, (List.range s.columnCount).filterMap (v.column? s),
    (List.range s.rowCount).map (v.rowOf s)⟩

/-- The entries of the context with their values. -/
def View.entries (v : View) : List (String × Value) :=
  v.context.map fun e => (e.1, v.valueOf e.2)

variable {v : View}

theorem entries_eq {es : List (String × Value)} (hsize : v.contextSize = es.length)
    (h : ∀ i e, es[i]? = some e →
      ∃ item, v.contextEntry? i = some (e.1, item) ∧ v.valueOf item = e.2) : v.entries = es := by
  rw [View.entries, View.context, hsize]
  refine map_filter_map_range_eq fun i e he => ?_
  obtain ⟨item, hentry, hvalue⟩ := h i e he
  exact ⟨(e.1, item), hentry, by rw [hvalue]⟩

theorem tables_eq {ss : List Section} (hsize : v.sectionCount = ss.length)
    (h : ∀ i s, ss[i]? = some s → ∃ w, v.section? i = some w ∧ v.tableOf w = s) :
    v.sections.map v.tableOf = ss := by
  rw [View.sections, hsize]
  exact map_filter_map_range_eq h

theorem read_row {s : SectionView} (h : v.SectionAt s) {row : Nat} (hrow : row < s.rowCount) :
    readRow v s row = .ok (v.rowOf s row) := by
  have hcells : ∀ i ∈ List.range s.storedWidth, (v.storedCell? s row i).isSome = true := by
    intro i hi
    exact (stored_cell_is_some h row i).mpr ⟨hrow, List.mem_range.mp hi⟩
  rw [readRow, map_m_filter_map hcells]
  rfl

theorem read_section_at {s : SectionView} (h : v.SectionAt s) :
    readSection v s = .ok (v.tableOf s) := by
  have hrows : (List.range s.rowCount).mapM (readRow v s) =
      .ok ((List.range s.rowCount).map (v.rowOf s)) :=
    mapM_ok fun row hrow => read_row h (List.mem_range.mp hrow)
  rw [readSection, hrows]
  rfl

theorem mem_sections {s : SectionView} (h : v.Sound) (hs : s ∈ v.sections) : v.SectionAt s := by
  obtain ⟨i, _, hi⟩ := List.mem_filterMap.mp hs
  exact section_sound h hi

theorem read_sections (h : v.Sound) :
    v.sections.mapM (readSection v) = .ok (v.sections.map v.tableOf) :=
  mapM_ok fun _ hs => read_section_at (mem_sections h hs)

theorem add_entry_ok {c c' : Context} {e : String × Item} :
    addEntry v c e = .ok c' ↔ c'.entries = c.entries ++ [(e.1, v.valueOf e.2)] := by
  rw [addEntry]
  constructor
  · intro h
    by_cases hc : c.contains e.1 = true
    · simp [hc, refuse] at h
    · rw [if_neg hc] at h
      cases h
      exact Fields.insert_entries (Fields.not_mem_of_contains (Bool.eq_false_iff.mpr hc)) _
  · intro h
    have hnew : e.1 ∉ c.keys := Fields.new_key h
    rw [Fields.contains_eq_false hnew, if_neg (by simp)]
    exact congrArg Except.ok (Fields.eq_of_entries ((Fields.insert_entries hnew _).trans h.symm))

/-- The context takes in every entry or, for a repeated key, none. -/
theorem add_entries_ok {es : List (String × Item)} {c c' : Context} :
    es.foldlM (addEntry v) c = .ok c' ↔
      c'.entries = c.entries ++ es.map fun e => (e.1, v.valueOf e.2) := by
  induction es generalizing c with
  | nil =>
    simp only [List.foldlM_nil, List.map_nil, List.append_nil]
    constructor
    · intro h
      cases h
      rfl
    · intro h
      exact congrArg Except.ok (Fields.eq_of_entries h.symm)
  | cons e rest ih =>
    simp only [List.foldlM_cons, bind_eq_ok, ih, add_entry_ok, List.map_cons]
    constructor
    · rintro ⟨c₁, hfirst, hrest⟩
      rw [hrest, hfirst, List.append_assoc, List.singleton_append]
    · intro h
      have hnew : e.1 ∉ c.keys := Fields.new_key h
      refine ⟨c.insert e.1 (v.valueOf e.2), Fields.insert_entries hnew _, ?_⟩
      rw [h, Fields.insert_entries hnew, List.append_assoc, List.singleton_append]

/-- A document is read from a view exactly if it keeps the rules and has the contents of the view. -/
theorem read_document_ok (h : v.Sound) {d : Document} :
    readDocument v = .ok d ↔ d.context.entries = v.entries ∧ d.sections = v.sections.map v.tableOf ∧
      d.violations = [] := by
  simp only [readDocument, read_sections h, bind_eq_ok, add_entries_ok, ok_bind]
  constructor
  · rintro ⟨c, hc, hd⟩
    cases hviolations : Document.violations ⟨c, v.sections.map v.tableOf⟩ with
    | nil =>
      rw [hviolations] at hd
      cases hd
      exact ⟨hc, rfl, hviolations⟩
    | cons x xs =>
      rw [hviolations] at hd
      cases hd
  · obtain ⟨c, sections⟩ := d
    rintro ⟨hc, rfl, hviolations⟩
    exact ⟨c, hc, by rw [hviolations]; rfl⟩

theorem add_entries_error {es : List (String × Item)} {c : Context} {fault : BufferFault}
    (h : es.foldlM (addEntry v) c = .error fault) : ∃ key, fault = .duplicateContextKey key := by
  induction es generalizing c with
  | nil => cases h
  | cons e rest ih =>
    rw [List.foldlM_cons, addEntry] at h
    by_cases hc : c.contains e.1 = true
    · rw [if_pos hc] at h
      cases h
      exact ⟨e.1, rfl⟩
    · rw [if_neg hc] at h
      exact ih h

/-- A sound view whose document is refused repeats a key or breaks a rule. -/
theorem read_document_error (h : v.Sound) {fault : BufferFault}
    (hfault : readDocument v = .error fault) :
    (∃ key, fault = .duplicateContextKey key) ∨ ∃ x, fault = .violation x := by
  rw [readDocument] at hfault
  cases hcontext : v.context.foldlM (addEntry v) ∅ with
  | error fault' =>
    rw [hcontext] at hfault
    cases hfault
    exact .inl (add_entries_error hcontext)
  | ok c =>
    simp only [hcontext, ok_bind, read_sections h] at hfault
    cases hviolations : Document.violations ⟨c, v.sections.map v.tableOf⟩ with
    | nil =>
      rw [hviolations] at hfault
      cases hfault
    | cons x xs =>
      rw [hviolations] at hfault
      cases hfault
      exact .inr ⟨x, rfl⟩

end DocForms.Buffer
