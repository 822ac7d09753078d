import DocForms.Proofs.Json.RoundTrip

namespace DocForms.Json
open Number

theorem typed_no_array {t : ColumnType} {location : String} {j : Json} {v : Value}
    (h : readTyped t location j = .ok v) : v.isArray = false := by
  have hscalar (hread : readScalar location j = .ok v) : v.isArray = false := by
    cases j with
    | bool b =>
      cases hread
      rfl
    | number n =>
      cases hread
      rw [numberValue]
      cases n.asInt64? <;> rfl
    | string s =>
      cases hread
      rfl
    | null | array _ | object _ => cases hread
  unfold readTyped at h
  split at h
  · cases h
    rfl
  · cases h
    rfl
  · cases h
    rfl
  · exact hscalar h

/-- A value has scalars if it was not read from an empty array. -/
theorem scalars_of_flat {t : ColumnType} {location : String} {j : Json} {v : Value}
    (h : readFlat (readTyped t) location j = .ok v) (hj : j ≠ .array []) : v.scalars ≠ [] := by
  have hsingle (hread : readTyped t location j = .ok v) : v.scalars ≠ [] := by
    have harray := typed_no_array hread
    cases v with
    | array items => cases harray
    | _ => exact List.cons_ne_nil _ _
  cases j with
  | array items =>
    obtain ⟨vs, hvs, hv⟩ := bind_eq_ok.mp h
    obtain ⟨hlength, -⟩ := mapM_zip_idx_eq_ok.mp hvs
    cases hv
    rintro ⟨⟩
    exact hj (congrArg Json.array (List.length_eq_zero_iff.mp hlength))
  | _ => exact hsingle h

theorem column_type_plain (column : List Json) :
    (columnType column).spelledOut = columnType column := by
  unfold columnType
  dsimp only
  split_ifs <;> rfl

/-- Only a column with something in it is not one of strings. -/
theorem column_type_scalars {column : List Json} (h : columnType column ≠ .string) :
    ∃ j ∈ column, j ≠ .array [] := by
  by_contra hnone
  push Not at hnone
  have hempty : columnScalars column = [] := by
    refine List.flatMap_eq_nil_iff.mpr fun j hj => ?_
    rw [hnone j hj]
  rw [columnType, hempty] at h
  exact h rfl

section Columns
variable {id name : String} {rows : List Members} {c : Column} {cells : List Value}

theorem read_column_shape (h : readColumn id rows name = .ok (c, cells)) :
    c.type.spelledOut = c.type ∧ cells.length = rows.length := by
  obtain ⟨raw, ⟨hraw, -⟩, rfl, hcells, -⟩ := read_column_ok.mp h
  exact ⟨column_type_plain raw, (hraw.trans hcells).symm⟩

/-- A column that is not one of strings was told by something in it. -/
theorem read_column_scalars (h : readColumn id rows name = .ok (c, cells)) (hne : c.type ≠ .string) :
    ∃ (i : Nat) (v : Value), cells[i]? = some v ∧ v.scalars ≠ [] := by
  obtain ⟨raw, -, rfl, hcells, hvalues⟩ := read_column_ok.mp h
  obtain ⟨j, hj, hjne⟩ := column_type_scalars hne
  obtain ⟨i, hi⟩ := List.mem_iff_getElem?.mp hj
  have hlt : i < cells.length := by
    rw [← hcells]
    exact (List.getElem?_eq_some_iff.mp hi).1
  have hv := List.getElem?_eq_getElem hlt
  exact ⟨i, _, hv, scalars_of_flat (hvalues i j _ hi hv) hjne⟩

theorem read_column_name (h : readColumn id rows name = .ok (c, cells)) : c.name = name := by
  obtain ⟨raw, -, rfl, -⟩ := read_column_ok.mp h
  rfl

/-- A section that is read has a row for each object, as wide as the first of them, and its columns are
those that are read for the names of the first. -/
theorem read_section_columns {s : Section} (h : readSection id rows = .ok s) :
    s.columns.map Column.name = (rows.headD []).map Prod.fst ∧ s.rows.length = rows.length ∧
      (∀ values ∈ s.rows, values.length = s.columns.length) ∧
      ∀ (k : Nat) c, s.columns[k]? = some c → ∃ cells, readColumn id rows c.name = .ok (c, cells) ∧
        ∀ (r : Nat) values, s.rows[r]? = some values → values[k]? = cells[r]? := by
  obtain ⟨columns, hcolumns, rfl⟩ := read_section_ok h
  obtain ⟨hlength, hstep⟩ := mapM_eq_ok_at.mp hcolumns
  have hread : ∀ column ∈ columns, readColumn id rows column.1.name = .ok column := by
    intro column hmem
    obtain ⟨name, -, hname⟩ := mapM_ok_mem hcolumns hmem
    rw [read_column_name hname, hname]
  have hcount : ∀ cells ∈ columns.map Prod.snd, cells.length = rows.length := by
    intro cells hcells
    obtain ⟨column, hmem, rfl⟩ := List.mem_map.mp hcells
    exact (read_column_shape (hread column hmem)).2
  have hrow {r : Nat} {values : Row}
      (hvalues : (rowsOfColumns rows.length (columns.map Prod.snd))[r]? = some values) :
      values.length = columns.length ∧ ∀ k : Nat, values[k]? = (columns.map Prod.snd)[k]?.bind (·[r]?) := by
    have hr : r < rows.length := by simpa [rowsOfColumns] using (List.getElem?_eq_some_iff.mp hvalues).1
    obtain ⟨row, hrow, hwidth, hat⟩ := row_of_columns hcount hr
    cases hvalues.symm.trans hrow
    exact ⟨by rw [hwidth, List.length_map], hat⟩
  refine ⟨?_, by simp [rowsOfColumns], fun values hvalues => ?_, fun k c hc => ?_⟩
  · rw [List.map_map]
    refine List.ext_getElem (by simpa using hlength.symm) fun k hk hk' => ?_
    rw [List.getElem_map]
    rw [List.length_map] at hk
    exact read_column_name (hstep k _ _ (List.getElem?_eq_getElem hk') (List.getElem?_eq_getElem hk))
  · obtain ⟨r, hr⟩ := List.mem_iff_getElem?.mp hvalues
    rw [(hrow hr).1, List.length_map]
  · rw [List.getElem?_map] at hc
    obtain ⟨column, hk, rfl⟩ := Option.map_eq_some_iff.mp hc
    refine ⟨column.2, hread column (List.mem_of_getElem? hk), fun r values hvalues => ?_⟩
    rw [(hrow hvalues).2, List.getElem?_map, hk]
    rfl

end Columns

/-- A section read from objects has rows and tells its types again. -/
theorem imported_section {id : String} {rows : List Members} {s : Section}
    (h : readSection id rows = .ok s) (hrows : rows ≠ []) :
    s.rows ≠ [] ∧ (∀ c ∈ s.columns, c.type.spelledOut = c.type) ∧
      ∀ (k : Nat) c, s.columns[k]? = some c → c.type ≠ .string → s.scalarsAt k ≠ [] := by
  obtain ⟨-, hcount, -, hcolumns⟩ := read_section_columns h
  refine ⟨?_, fun c hc => ?_, fun k c hc hne => ?_⟩
  · rw [← List.length_pos_iff, hcount]
    exact List.length_pos_iff.mpr hrows
  · obtain ⟨k, hk⟩ := List.mem_iff_getElem?.mp hc
    obtain ⟨cells, hread, -⟩ := hcolumns k c hk
    exact (read_column_shape hread).1
  · obtain ⟨cells, hread, hat⟩ := hcolumns k c hc
    obtain ⟨i, v, hv, hscalars⟩ := read_column_scalars hread hne
    have hlt := (List.getElem?_eq_some_iff.mp hv).1
    rw [(read_column_shape hread).2, ← hcount] at hlt
    have hrow := List.getElem?_eq_getElem hlt
    refine scalars_at_ne_nil.mpr ⟨_, List.mem_of_getElem? hrow, v, ?_, hscalars⟩
    rw [hat i _ hrow, hv]

/-- A section without types that JSON lacks has nothing to spell out. -/
theorem plain_section {s : Section} (hplain : ∀ c ∈ s.columns, c.type.spelledOut = c.type) :
    s.spelledOut = s ∧ s.storedColumns = s.columns := by
  have hstored : ∀ c ∈ s.columns, c.type.isStored = true := fun c hc => by
    rw [← hplain c hc]
    exact spelled_stored c.type
  have hcolumns : s.columns.map Column.spelledOut = s.columns := by
    rw [List.map_congr_left (g := id), List.map_id]
    intro c hc
    rw [Column.spelledOut, hplain c hc]
    rfl
  have hrow : s.spelledRow = fun _ row => row := by
    have hauto : s.autoIdIndex? = none := by
      refine List.findIdx?_eq_none_iff.mpr fun c hc => ?_
      simpa [ColumnType.isStored] using hstored c hc
    funext index row
    rw [Section.spelledRow, hauto]
  have hrows : s.rows.mapIdx s.spelledRow = s.rows := by
    rw [hrow]
    apply List.ext_getElem?
    simp
  exact ⟨by rw [Section.spelledOut, hcolumns, hrows], List.filter_eq_self.mpr hstored⟩

section Imported
variable {text : String} {d : Document}

theorem imported_ok (h : readDocument text = .ok d) : ∃ j members, read text = .ok j ∧
    j.distinct = .object members ∧ Takes (leaves "" members) d.context.entries d.sections ∧
    d.Lawful := by
  obtain ⟨j, hread, hdocument⟩ := bind_eq_ok.mp h
  obtain ⟨members, hmembers, htakes, hlawful⟩ := to_document_ok.mp hdocument
  exact ⟨j, members, map_error_eq_ok.mp hread, hmembers, htakes, hlawful⟩

/-- A document read from JSON is told in full by JSON, if its names allow that it is written. -/
theorem imported_told (h : readDocument text = .ok d) (hapart : Apart d)
    (hexact : ∀ x, .float x ∈ d.scalars → ReadsBack (.float x)) :
    Told d ∧ d.spelledOut = d := by
  obtain ⟨j, members, -, -, htakes, hlawful⟩ := imported_ok h
  have hsection : ∀ s ∈ d.sections, s.rows ≠ [] ∧ (∀ c ∈ s.columns, c.type.spelledOut = c.type) ∧
      ∀ (k : Nat) c, s.columns[k]? = some c → c.type ≠ .string → s.scalarsAt k ≠ [] := by
    intro s hs
    obtain ⟨rows, hrows, hread⟩ := htakes.mem_sections hs
    exact imported_section hread hrows
  have hplain : d.spelledOut = d := by
    have hsections : d.sections.map Section.spelledOut = d.sections := by
      rw [List.map_congr_left (g := id), List.map_id]
      exact fun s hs => (plain_section (hsection s hs).2.1).1
    rw [Document.spelledOut, hsections]
  have htold := told_spelled hlawful hapart (fun s hs => (hsection s hs).1)
    (fun s hs => by
      rw [(plain_section (hsection s hs).2.1).2]
      exact (hsection s hs).2.2) hexact
  rw [hplain] at htold
  exact ⟨htold, hplain⟩

/-- A document in which a section has the name of a context field is refused under that name. -/
theorem write_clash (hd : d.isValid = true) (hclash : ¬Apart d) :
    ∃ key ∈ d.context.keys, key ∈ d.sections.map Section.id ∧
      write d = .error (.encoding [.keyClash key]) := by
  cases hfind : clash? d with
  | none => exact absurd (clash_none.mp hfind) hclash
  | some key =>
    obtain ⟨s, hs, hkey⟩ := Option.map_eq_some_iff.mp hfind
    have hcontains := List.find?_some hs
    refine ⟨key, ?_, ?_, ?_⟩
    · rw [← hkey]
      exact Fields.contains_iff.mp hcontains
    · rw [← hkey]
      exact List.mem_map_of_mem (List.mem_of_find?_eq_some hs)
    · rw [write, ofDocument, Document.requireValid, if_pos hd, ok_bind, hfind]
      rfl

end Imported

/-- Fields that collide once flattened are refused, and so are sections. A document that was read is
written and comes back as it is, unless a section has the name of a field: then it is read, but cannot be
written. -/
theorem imports_come_back (text : String) (d : Document) (hread : readDocument text = .ok d)
    (hexact : ∀ x, .float x ∈ d.scalars → ReadsBack (.float x)) :
    (∃ j members, read text = .ok j ∧ j.distinct = .object members ∧
      d.context.keys = fieldNames (leaves "" members) ∧ (fieldNames (leaves "" members)).Nodup ∧
      d.sections.map Section.id = tableNames (leaves "" members) ∧
      (tableNames (leaves "" members)).Nodup) ∧
    ((∀ s ∈ d.sections, s.id ∉ d.context.keys) →
      ∃ out, write d = .ok out ∧ readDocument out = .ok d) ∧
    ((∃ s ∈ d.sections, s.id ∈ d.context.keys) → ∃ key ∈ d.context.keys,
      key ∈ d.sections.map Section.id ∧ write d = .error (.encoding [.keyClash key])) := by
  obtain ⟨j, members, hj, hmembers, htakes, hlawful⟩ := imported_ok hread
  have hvalid : d.isValid = true := Document.is_valid_iff.mpr hlawful
  obtain ⟨hkeys, hids⟩ := htakes.names
  refine ⟨⟨j, members, hj, hmembers, hkeys, ?_, hids, ?_⟩, fun hapart => ?_, ?_⟩
  · rw [← hkeys]
    exact d.context.nodup
  · rw [← hids]
    exact hlawful.sectionsDiffer
  · obtain ⟨htold, hplain⟩ := imported_told hread hapart hexact
    have hwrite := write_apart hvalid hapart
    rw [hplain] at hwrite
    exact ⟨textOf d, hwrite, read_told htold⟩
  · rintro ⟨s, hs, hkey⟩
    exact write_clash hvalid fun hapart => hapart s hs hkey

section Example

/-- A field `x.y` beside a section `y` inside `x`. -/
def clashText : String :=
  "\x7b\"x.y\": 1, \"x\": \x7b\"y\": [\x7b\"c\": 1\x7d]\x7d\x7d"

def clashing : Document :=
  ⟨⟨[("x.y", .int 1)], by simp⟩, [⟨"x.y", [⟨"c", .int⟩], [[.int 1]]⟩]⟩

/-- A field and a section that collide once flattened are read, into a document that cannot be
written. -/
theorem clashing_read_not_written :
    readDocument clashText = .ok clashing ∧ write clashing = .error (.encoding [.keyClash "x.y"]) := by
  decide +kernel

/-- Nested fields, and a table with its fields in another order in the second row. -/
def nestedText : String :=
  "\x7b\"a\": \x7b\"b\": [1, 2.5]\x7d, \"t\": [\x7b\"n\": 1, \"s\": \"x\"\x7d, \x7b\"s\": true, \"n\": 2\x7d]\x7d"

def nested : Document :=
  ⟨⟨[("a.b", .array [.int 1, .float ⟨0x4004000000000000⟩])], by simp⟩,
    [⟨"t", [⟨"n", .int⟩, ⟨"s", .string⟩], [[.int 1, .string "x"], [.int 2, .string "true"]]⟩]⟩

theorem imports_come_back_nested :
    readDocument nestedText = .ok nested ∧ (∀ x, .float x ∈ nested.scalars → ReadsBack (.float x)) ∧
    ∃ out, write nested = .ok out ∧ readDocument out = .ok nested := by
  have hread : readDocument nestedText = .ok nested := by decide +kernel
  have hexact : ∀ x, .float x ∈ nested.scalars → ReadsBack (.float x) := by
    intro x hx
    obtain rfl : x = ⟨0x4004000000000000⟩ := by
      simpa [nested, Document.scalars, Fields.values, Value.scalars] using hx
    decide +kernel
  exact ⟨hread, hexact, (imports_come_back nestedText nested hread hexact).2.1 (by decide)⟩

end Example
end DocForms.Json
