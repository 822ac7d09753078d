import DocForms.Document.Validation

namespace DocForms

/-- The ways in which a value at a location breaks a rule. -/
inductive Value.Fault (type? : Option ColumnType) (location : String) (v : Value) : Violation → Prop
  | negative (n : Int64) : Fault type? location v (.negativeBase62 location n)
  | notFinite : Fault type? location v (.nonFiniteFloat location)
  | longString (size : Nat) : Fault type? location v (.stringTooLong location size)
  | longArray (size : Nat) : Fault type? location v (.arrayTooLong location size)
  | nested : Fault type? location v (.nestedArray location)
  | mismatch (t : ColumnType) (found : String) (ht : type? = some t) (hv : t.accepts v = false) :
    Fault type? location v (.typeMismatch location t found)

theorem mem_unless {p : Prop} [Decidable p] {x v : Violation} :
    x ∈ (if p then [v] else []) ↔ p ∧ x = v := by
  split <;> simp_all

theorem name_violation {name : String} {x : Violation} (hx : x ∈ nameViolations name) :
    isName name = false ∧ x = .invalidName name := by
  unfold nameViolations at hx
  split at hx
  · cases hx
  · rename_i hname
    exact ⟨Bool.eq_false_iff.mpr hname, List.mem_singleton.mp hx⟩

namespace Value
variable {type? : Option ColumnType} {location : String} {v : Value} {x : Violation}

theorem scalar_fault (hx : x ∈ v.scalarViolations type? location) : v.Fault type? location x := by
  rcases List.mem_append.mp hx with hsize | htype
  · cases v with
    | string s =>
      obtain ⟨-, rfl⟩ := mem_unless.mp hsize
      exact .longString _
    | float d =>
      dsimp only [sizeViolations] at hsize
      split at hsize
      · cases hsize
      · rw [List.mem_singleton.mp hsize]
        exact .notFinite
    | _ => cases hsize
  · cases type? with
    | none => cases htype
    | some t =>
      change x ∈ v.typeViolations location t at htype
      unfold typeViolations at htype
      split at htype
      · obtain ⟨-, rfl⟩ := mem_unless.mp htype
        exact .negative _
      · split at htype
        · cases htype
        · rename_i haccepts
          rw [List.mem_singleton.mp htype]
          exact .mismatch t _ rfl (Bool.eq_false_iff.mpr haccepts)

/-- An array does not have the type of its column if one of its items does not. -/
theorem Fault.of_item {items : List Value} {item : Value} (hitem : item ∈ items)
    (harray : item.isArray = false) (h : item.Fault type? location x) :
    (Value.array items).Fault type? location x := by
  cases h with
  | negative n => exact .negative n
  | notFinite => exact .notFinite
  | longString size => exact .longString size
  | longArray size => exact .longArray size
  | nested => exact .nested
  | mismatch t found ht hv =>
    refine .mismatch t found ht (List.all_eq_false.mpr ⟨item, hitem, ?_⟩)
    cases item with
    | array _ => cases harray
    | _ => exact Bool.eq_false_iff.mp hv

theorem fault_of_violation (hx : x ∈ v.violations type? location) : v.Fault type? location x := by
  cases v with
  | array items =>
    rcases List.mem_append.mp hx with hlong | hitems
    · obtain ⟨-, rfl⟩ := mem_unless.mp hlong
      exact .longArray _
    · obtain ⟨item, hitem, hx⟩ := List.mem_flatMap.mp hitems
      split at hx
      · rw [List.mem_singleton.mp hx]
        exact .nested
      · rename_i harray
        exact (scalar_fault hx).of_item hitem (Bool.eq_false_iff.mpr harray)
  | _ => exact scalar_fault hx

end Value

namespace Section
variable {s : Section} {x : Violation}

theorem column_violation {id : String} {seen : List String} {columns : List Column}
    (hx : x ∈ columnViolations id seen columns) : ∃ c ∈ columns,
      (isName c.name = false ∧ x = .invalidName c.name) ∨ x = .duplicateColumn id c.name := by
  induction columns generalizing seen with
  | nil => cases hx
  | cons c cs ih =>
    rw [columnViolations, List.mem_append, List.mem_append] at hx
    rcases hx with (hname | htwice) | hrest
    · exact ⟨c, by simp, .inl (name_violation hname)⟩
    · exact ⟨c, by simp, .inr (mem_unless.mp htwice).2⟩
    · obtain ⟨d, hd, hx⟩ := ih hrest
      exact ⟨d, List.mem_cons_of_mem _ hd, hx⟩

theorem row_violation {index : Nat} {row : Row} (hx : x ∈ s.rowViolations index row) :
    (row.length ≠ s.storedWidth ∧ x = .rowArity s.id index s.storedWidth row.length) ∨
      ∃ p ∈ s.storedColumns.zip row,
        p.2.Fault (some p.1.type) (cellLocation s.id index p.1.name) x := by
  unfold rowViolations at hx
  split at hx
  · rename_i hlength
    exact .inl ⟨hlength, List.mem_singleton.mp hx⟩
  · obtain ⟨p, hp, hx⟩ := List.mem_flatMap.mp hx
    exact .inr ⟨p, hp, Value.fault_of_violation hx⟩

/-- The ways in which a section breaks a rule. -/
inductive Fault (s : Section) : Violation → Prop
  | badId (hid : isName s.id = false) : Fault s (.invalidName s.id)
  | reserved : Fault s (.reservedSectionId s.id)
  | badColumn (c : Column) (hc : c ∈ s.columns) (hname : isName c.name = false) :
    Fault s (.invalidName c.name)
  | twice (c : Column) (hc : c ∈ s.columns) : Fault s (.duplicateColumn s.id c.name)
  | noneStored : Fault s (.emptySchema s.id)
  | autoIds : Fault s (.multipleAutoId s.id)
  | arity (index : Nat) (row : Row) (hrow : row ∈ s.rows) (hlength : row.length ≠ s.storedWidth) :
    Fault s (.rowArity s.id index s.storedWidth row.length)
  | cell (index : Nat) (row : Row) (hrow : row ∈ s.rows) (p : Column × Value)
    (hp : p ∈ s.storedColumns.zip row) (x : Violation)
    (hx : p.2.Fault (some p.1.type) (cellLocation s.id index p.1.name) x) : Fault s x

theorem fault_of_violation (hx : x ∈ s.violations) : s.Fault x := by
  simp only [violations, List.mem_append] at hx
  obtain ((((hid | hreserved) | hcolumn) | hempty) | hauto) | hrows := hx
  · obtain ⟨hname, rfl⟩ := name_violation hid
    exact .badId hname
  · obtain ⟨-, rfl⟩ := mem_unless.mp hreserved
    exact .reserved
  · obtain ⟨c, hc, ⟨hname, rfl⟩ | rfl⟩ := column_violation hcolumn
    · exact .badColumn c hc hname
    · exact .twice c hc
  · obtain ⟨-, rfl⟩ := mem_unless.mp hempty
    exact .noneStored
  · obtain ⟨-, rfl⟩ := mem_unless.mp hauto
    exact .autoIds
  · obtain ⟨⟨row, index⟩, hrow, hx⟩ := List.mem_flatMap.mp hrows
    have hmem := List.fst_mem_of_mem_zipIdx hrow
    obtain ⟨hlength, rfl⟩ | ⟨p, hp, hfault⟩ := row_violation hx
    · exact .arity index row hmem hlength
    · exact .cell index row hmem p hp x hfault

end Section
end DocForms
