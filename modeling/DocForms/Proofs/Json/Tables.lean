import DocForms.Json.Import
import DocForms.Proofs.Json.Spelled
import DocForms.Proofs.Outcomes

namespace DocForms.Json
open Number

/-- What all lists have at a place, list by list. -/
theorem column_at {α : Type} {lists : List (List α)} {i : Nat} (h : ∀ l ∈ lists, i < l.length)
    (k : Nat) : (lists.filterMap (·[i]?))[k]? = lists[k]?.bind (·[i]?) := by
  induction lists generalizing k with
  | nil => rfl
  | cons l ls ih =>
    have hi : i < l.length := h l (by simp)
    have hl : l[i]? = some l[i] := List.getElem?_eq_getElem hi
    rw [List.filterMap_cons, hl]
    cases k with
    | zero => simp [hl]
    | succ k => exact ih (fun l' hl' => h l' (List.mem_cons_of_mem _ hl')) k

theorem length_column {α : Type} {lists : List (List α)} {i : Nat} (h : ∀ l ∈ lists, i < l.length) :
    (lists.filterMap (·[i]?)).length = lists.length :=
  List.filterMap_length_eq_length.mpr fun l hl => by simp [h l hl]

/-- A row of a table given by its columns. -/
theorem row_of_columns {columns : List (List Value)} {count i : Nat}
    (h : ∀ column ∈ columns, column.length = count) (hi : i < count) :
    ∃ row, (rowsOfColumns count columns)[i]? = some row ∧ row.length = columns.length ∧
      ∀ k : Nat, row[k]? = columns[k]?.bind (·[i]?) := by
  have hlong : ∀ column ∈ columns, i < column.length := fun column hcolumn => by
    rw [h column hcolumn]
    exact hi
  exact ⟨_, by simp [rowsOfColumns, hi], length_column hlong, column_at hlong⟩

/-- A table is the same by rows and by columns. -/
theorem rows_of_columns_of_rows {rows : List Row} {width : Nat}
    (h : ∀ row ∈ rows, row.length = width) :
    rowsOfColumns rows.length ((List.range width).map fun k => rows.filterMap (·[k]?)) = rows := by
  have hlong {k : Nat} (hk : k < width) : ∀ row ∈ rows, k < row.length := fun row hrow => by
    rw [h row hrow]
    exact hk
  have hcount : ∀ column ∈ (List.range width).map fun k => rows.filterMap (·[k]?),
      column.length = rows.length := by
    intro column hcolumn
    obtain ⟨k, hk, rfl⟩ := List.mem_map.mp hcolumn
    exact length_column (hlong (List.mem_range.mp hk))
  apply List.ext_getElem?
  intro i
  by_cases hi : i < rows.length
  · obtain ⟨row, hrow, hlength, hvalues⟩ := row_of_columns hcount hi
    rw [hrow, List.getElem?_eq_getElem hi, Option.some.injEq]
    apply List.ext_getElem?
    intro k
    rw [hvalues, List.getElem?_map]
    by_cases hk : k < width
    · simp [List.getElem?_range hk, column_at (hlong hk), hi]
    · have hshort : rows[i].length ≤ k := by
        rw [h _ (List.getElem_mem hi)]
        omega
      simp [hk, hshort]
  · simp [rowsOfColumns, hi]

theorem of_values_eq (vs : List Value) : ofValues vs = vs.map ofValue := by
  induction vs with
  | nil => rfl
  | cons v vs ih => rw [ofValues, ih, List.map_cons]

theorem as_int64 (n : Int64) : (JsonNumber.int n.toInt).asInt64? = some n := by
  have hlow := Int64.le_toInt n
  have hhigh := Int64.toInt_lt n
  rw [JsonNumber.asInt64?, Number.int64?, if_pos, Int64.ofInt_toInt]
  constructor
  · exact hlow
  · exact Int.le_of_lt_add_one hhigh

theorem of_finite {x : Double} (h : x.isFinite = true) : ofDouble x = .number (.float x) := by
  rw [ofDouble, if_pos h]

/-- A scalar is read back where its type does not matter. -/
theorem read_scalar_value {type? : Option ColumnType} {v : Value} (hv : v.LawfulScalar type?)
    (location : String) : readScalar location (ofValue v) = .ok v := by
  cases v with
  | bool b => rfl
  | int n => rw [ofValue, readScalar, numberValue, as_int64]
  | float x =>
    rw [ofValue, of_finite hv.1]
    rfl
  | string s => rfl
  | array items => cases hv

/-- A scalar is read back under its own type. -/
theorem read_typed_value {t : ColumnType} (ht : t.spelledOut = t) {v : Value}
    (hv : v.LawfulScalar (some t)) (location : String) :
    readTyped t location (ofValue v) = .ok v := by
  have hscalar := read_scalar_value hv location
  cases v with
  | bool b =>
    obtain rfl := hv t rfl
    exact hscalar
  | int n =>
    rcases hv t rfl with rfl | ⟨rfl, -⟩
    · exact hscalar
    · cases ht
  | float x =>
    obtain ⟨hfinite, ht⟩ := hv
    obtain rfl := ht t rfl
    rw [ofValue, of_finite hfinite]
    rfl
  | string s =>
    obtain rfl := hv.2 t rfl
    exact hscalar
  | array items => cases hv

/-- A value is read back if its scalars are. -/
theorem read_flat_value {type? : Option ColumnType} {scalar : String → Json → Except Failure Value}
    (h : ∀ v, v.LawfulScalar type? → ∀ location, scalar location (ofValue v) = .ok v) {v : Value}
    (hv : v.Lawful type?) (location : String) : readFlat scalar location (ofValue v) = .ok v := by
  cases v with
  | array items =>
    have hitems : (items.map ofValue).zipIdx.mapM
        (fun p => scalar s!"{location}[{p.2}]" p.1) = .ok items := by
      refine mapM_zip_idx_eq_ok.mpr ⟨by simp, fun i j item hj hitem => ?_⟩
      rw [List.getElem?_map, hitem, Option.map_some, Option.some.injEq] at hj
      rw [← hj]
      exact h item (hv.2 item (List.mem_of_getElem? hitem)) _
    rw [ofValue, of_values_eq]
    exact bind_eq_ok.mpr ⟨items, hitems, rfl⟩
  | float x =>
    have hread := h (.float x) hv location
    rw [ofValue, of_finite hv.1] at hread ⊢
    exact hread
  | bool b => exact h (.bool b) hv location
  | int n => exact h (.int n) hv location
  | string s => exact h (.string s) hv location

/-- The scalars of a column are those of its values. -/
theorem column_scalars_values (vs : List Value) :
    columnScalars (vs.map ofValue) = (vs.flatMap Value.scalars).map ofValue := by
  rw [columnScalars, List.flatMap_map, List.map_flatMap]
  congr 1
  funext v
  cases v with
  | array items =>
    rw [ofValue, of_values_eq]
    rfl
  | float x => cases hx : x.isFinite <;> simp [ofValue, ofDouble, hx, Value.scalars]
  | _ => rfl

/-- A scalar is of the kind that its type is. -/
theorem scalar_kind {t : ColumnType} (ht : t.spelledOut = t) {v : Value}
    (hv : v.LawfulScalar (some t)) :
    isBool (ofValue v) = (t == .bool) ∧ isInt64 (ofValue v) = (t == .int) ∧
      isNumber (ofValue v) = (t == .int || t == .float) := by
  cases v with
  | bool b =>
    obtain rfl := hv t rfl
    exact ⟨rfl, rfl, rfl⟩
  | int n =>
    rcases hv t rfl with rfl | ⟨rfl, -⟩
    · rw [ofValue, isInt64, as_int64]
      exact ⟨rfl, rfl, rfl⟩
    · cases ht
  | float x =>
    obtain ⟨hfinite, ht⟩ := hv
    obtain rfl := ht t rfl
    rw [ofValue, of_finite hfinite]
    exact ⟨rfl, rfl, rfl⟩
  | string s =>
    obtain rfl := hv.2 t rfl
    exact ⟨rfl, rfl, rfl⟩
  | array items => cases hv

theorem all_alike {α : Type} {p : α → Bool} {b : Bool} {as : List α} (hne : as ≠ [])
    (h : ∀ a ∈ as, p a = b) : as.all p = b := by
  cases b with
  | true => exact List.all_eq_true.mpr h
  | false =>
    obtain ⟨a, rest, rfl⟩ := List.exists_cons_of_ne_nil hne
    rw [List.all_cons, h a (by simp), Bool.false_and]

theorem lawful_scalars {type? : Option ColumnType} {v : Value} (hv : v.Lawful type?) :
    ∀ w ∈ v.scalars, w.LawfulScalar type? := by
  cases v with
  | array items => exact hv.2
  | _ => exact fun w hw => List.mem_singleton.mp hw ▸ hv

/-- The type of a column is told by its values, unless there are none to tell it. -/
theorem column_type_told {t : ColumnType} (ht : t.spelledOut = t) {vs : List Value}
    (hvs : ∀ v ∈ vs, v.Lawful (some t)) (htold : t ≠ .string → vs.flatMap Value.scalars ≠ []) :
    columnType (vs.map ofValue) = t := by
  have hscalars : ∀ w ∈ vs.flatMap Value.scalars, w.LawfulScalar (some t) := by
    intro w hw
    obtain ⟨v, hv, hmem⟩ := List.mem_flatMap.mp hw
    exact lawful_scalars (hvs v hv) w hmem
  rw [columnType, column_scalars_values]
  generalize vs.flatMap Value.scalars = scalars at hscalars htold ⊢
  by_cases hnone : scalars = []
  · by_cases hstring : t = .string
    · rw [hnone, hstring]
      rfl
    · exact absurd hnone (htold hstring)
  · have hne : scalars.map ofValue ≠ [] := by simpa using hnone
    have hall {p : Json → Bool} {b : Bool} (h : ∀ w, w.LawfulScalar (some t) → p (ofValue w) = b) :
        (scalars.map ofValue).all p = b := by
      refine all_alike hne fun j hj => ?_
      obtain ⟨w, hw, rfl⟩ := List.mem_map.mp hj
      exact h w (hscalars w hw)
    have hbool := hall fun w hw => (scalar_kind ht hw).1
    have hint := hall fun w hw => (scalar_kind ht hw).2.1
    have hnumber := hall fun w hw => (scalar_kind ht hw).2.2
    rw [if_neg (by simpa using hnone), hbool, hint, hnumber]
    cases t with
    | base62 | autoId => cases ht
    | _ => rfl

/-- Reading a column: every row has a member of its name, these tell its type, and each is read under
that type. -/
theorem read_column_ok {id name : String} {rows : List Members} {c : Column} {cells : List Value} :
    readColumn id rows name = .ok (c, cells) ↔ ∃ raw : List Json,
      (rows.length = raw.length ∧ ∀ (i : Nat) row j, rows[i]? = some row → raw[i]? = some j →
        row.lookup name = some j) ∧
      c = ⟨name, columnType raw⟩ ∧
      raw.length = cells.length ∧ ∀ (i : Nat) j v, raw[i]? = some j → cells[i]? = some v →
        readFlat (readTyped c.type) s!"{rowLocation id i}.{name}" j = .ok v := by
  rw [readColumn, bind_eq_ok]
  refine exists_congr fun raw => ?_
  rw [mapM_zip_idx_eq_ok, bind_eq_ok]
  refine and_congr (and_congr_right fun _ => ?_) ?_
  · refine forall₅_congr fun i row j _ _ => ?_
    dsimp only
    cases row.lookup name <;> simp [shapeFault]
  · constructor
    · rintro ⟨cells, hcells, hc⟩
      cases hc
      exact ⟨rfl, mapM_zip_idx_eq_ok.mp hcells⟩
    · rintro ⟨rfl, hcells⟩
      exact ⟨cells, mapM_zip_idx_eq_ok.mpr hcells, rfl⟩

/-- Reading a section: the columns are those of the first row's names. -/
theorem read_section_ok {id : String} {rows : List Members} {s : Section}
    (h : readSection id rows = .ok s) : ∃ columns,
      ((rows.headD []).map Prod.fst).mapM (readColumn id rows) = .ok columns ∧
      s = ⟨id, columns.map Prod.fst, rowsOfColumns rows.length (columns.map Prod.snd)⟩ := by
  rw [readSection] at h
  dsimp only at h
  split at h
  · cases h
  · obtain ⟨columns, hcolumns, hs⟩ := bind_eq_ok.mp h
    cases hs
    exact ⟨columns, hcolumns, rfl⟩

theorem section_id {id : String} {rows : List Members} {s : Section}
    (h : readSection id rows = .ok s) : s.id = id := by
  obtain ⟨columns, -, rfl⟩ := read_section_ok h
  rfl

/-- A table whose types are told by its values: no type is one that JSON lacks, and only a column of
strings may be without scalars. -/
structure Tellable (t : Section) : Prop where
  rows : t.rows ≠ []
  named : (t.columns.map Column.name).Nodup
  width : ∀ row ∈ t.rows, row.length = t.columns.length
  plain : ∀ c ∈ t.columns, c.type.spelledOut = c.type
  cells : ∀ (k : Nat) c, t.columns[k]? = some c → ∀ row ∈ t.rows, ∀ v, row[k]? = some v →
    v.Lawful (some c.type)
  told : ∀ (k : Nat) c, t.columns[k]? = some c → c.type ≠ .string → t.scalarsAt k ≠ []

/-- The rows of a table as the members of objects. -/
def rowObjects (t : Section) : List Members :=
  t.rows.map fun row => (t.columns.map Column.name).zip (ofValues row)

theorem lookup_zip {α : Type} {names : List String} (h : names.Nodup) {as : List α} {k : Nat}
    {name : String} (hname : names[k]? = some name) : (names.zip as).lookup name = as[k]? := by
  induction names generalizing as k with
  | nil => simp at hname
  | cons first rest ih =>
    obtain ⟨hfirst, hrest⟩ := List.nodup_cons.mp h
    cases as with
    | nil => simp
    | cons a as =>
      cases k with
      | zero =>
        cases hname
        simp
      | succ k =>
        have hmem : name ∈ rest := List.mem_of_getElem? hname
        have hne : (name == first) = false := by
          rw [beq_eq_false_iff_ne]
          rintro rfl
          exact hfirst hmem
        rw [List.zip_cons_cons, List.lookup_cons, hne]
        exact ih hrest hname

section Told
variable {t : Section} (ht : Tellable t)
include ht

theorem Tellable.long {k : Nat} {c : Column} (hc : t.columns[k]? = some c) :
    ∀ row ∈ t.rows, k < row.length := by
  intro row hrow
  rw [ht.width row hrow]
  exact (List.getElem?_eq_some_iff.mp hc).1

/-- A column is read from the rows as it stands in them. -/
theorem read_told_column {k : Nat} {c : Column} (hc : t.columns[k]? = some c) :
    readColumn t.id (rowObjects t) c.name = .ok (c, t.rows.filterMap (·[k]?)) := by
  have hlong := ht.long hc
  have hplain := ht.plain c (List.mem_of_getElem? hc)
  have hvalues : ∀ v ∈ t.rows.filterMap (·[k]?), v.Lawful (some c.type) := by
    intro v hv
    obtain ⟨row, hrow, hvalue⟩ := List.mem_filterMap.mp hv
    exact ht.cells k c hc row hrow v hvalue
  have htype : columnType ((t.rows.filterMap (·[k]?)).map ofValue) = c.type :=
    column_type_told hplain hvalues (ht.told k c hc)
  refine read_column_ok.mpr ⟨(t.rows.filterMap (·[k]?)).map ofValue, ⟨?_, fun i row j hrow hj => ?_⟩,
    by rw [htype], by rw [List.length_map], fun i j v hj hv => ?_⟩
  · rw [rowObjects, List.length_map, List.length_map, length_column hlong]
  · rw [rowObjects, List.getElem?_map, Option.map_eq_some_iff] at hrow
    obtain ⟨values, hrow, rfl⟩ := hrow
    rw [List.getElem?_map, column_at hlong, hrow, Option.bind_some] at hj
    have hname : (t.columns.map Column.name)[k]? = some c.name := by
      rw [List.getElem?_map, hc]
      rfl
    rw [lookup_zip ht.named hname, of_values_eq, List.getElem?_map, hj]
  · rw [List.getElem?_map, hv, Option.map_some, Option.some.injEq] at hj
    rw [← hj]
    exact read_flat_value (fun w hw => read_typed_value hplain hw)
      (hvalues v (List.mem_of_getElem? hv)) _

theorem row_object_names {row : Members} (hrow : row ∈ rowObjects t) :
    row.map Prod.fst = t.columns.map Column.name := by
  obtain ⟨values, hvalues, rfl⟩ := List.mem_map.mp hrow
  have hlength : (t.columns.map Column.name).length = (ofValues values).length := by
    rw [of_values_eq, List.length_map, List.length_map, ht.width values hvalues]
  exact List.map_fst_zip (Nat.le_of_eq hlength)

/-- A table is read from its rows as it is. -/
theorem read_told_section : readSection t.id (rowObjects t) = .ok t := by
  have hnames : ((rowObjects t).headD []).map Prod.fst = t.columns.map Column.name := by
    obtain ⟨row, rest, hrows⟩ : ∃ row rest, rowObjects t = row :: rest :=
      List.exists_cons_of_ne_nil (by simpa [rowObjects] using ht.rows)
    rw [hrows]
    exact row_object_names ht (by simp [hrows])
  have hlengths : (rowObjects t).zipIdx.find? (fun p =>
      p.1.length != (t.columns.map Column.name).length) = none := by
    refine List.find?_eq_none.mpr fun p hp => ?_
    have hrow := row_object_names ht (List.fst_mem_of_mem_zipIdx hp)
    have hlength := congrArg List.length hrow
    rw [List.length_map] at hlength
    simp [hlength]
  have hcolumns : (t.columns.map Column.name).mapM (readColumn t.id (rowObjects t)) =
      .ok (t.columns.zipIdx.map fun p => (p.1, t.rows.filterMap (·[p.2]?))) := by
    have hindexed : (t.columns.zipIdx.map Prod.fst).map Column.name = t.columns.map Column.name := by
      rw [List.zipIdx_map_fst]
    rw [← hindexed, List.map_map]
    refine mapM_map fun p hp => ?_
    exact read_told_column ht (List.mem_zipIdx_iff_getElem?.mp hp)
  have hrows : rowsOfColumns (rowObjects t).length
      ((t.columns.zipIdx.map Prod.snd).map fun k => t.rows.filterMap (·[k]?)) = t.rows := by
    rw [List.zipIdx_map_snd, ← List.range_eq_range', rowObjects, List.length_map]
    exact rows_of_columns_of_rows ht.width
  have hfirst : t.columns.zipIdx.map Prod.fst = t.columns := List.zipIdx_map_fst 0 _
  rw [List.map_map] at hrows
  rw [readSection, hnames]
  dsimp only
  rw [hlengths]
  dsimp only
  rw [hcolumns, ok_bind, List.map_map, List.map_map]
  change Except.ok (Section.mk t.id (t.columns.zipIdx.map Prod.fst) _) = _
  rw [hfirst]
  exact congrArg (fun rows => Except.ok (Section.mk t.id t.columns rows)) hrows

end Told

theorem plain_spelled (t : ColumnType) : t.spelledOut.spelledOut = t.spelledOut := by
  cases t <;> rfl

/-- A section tells its types with its row numbers and base-62 numbers spelled out, unless a stored
column that is not one of strings has no scalars. -/
theorem tellable_spelled {s : Section} (hs : s.Lawful) (hrows : s.rows ≠ [])
    (htold : ∀ (k : Nat) c, s.storedColumns[k]? = some c → c.type ≠ .string → s.scalarsAt k ≠ []) :
    Tellable s.spelledOut := by
  constructor
  case rows =>
    rw [Section.spelledOut]
    simpa using hrows
  case named =>
    rw [spelled_names]
    exact hs.columnsDiffer
  case width => exact fun row => spelled_width hs
  case plain =>
    intro c' hc'
    obtain ⟨c, -, rfl⟩ := List.mem_map.mp hc'
    exact plain_spelled c.type
  case cells => exact fun k c' hc' row hrow v => spelled_cell_lawful hs hc' hrow
  case told => exact fun k c' => spelled_scalars hs hrows htold

end DocForms.Json
