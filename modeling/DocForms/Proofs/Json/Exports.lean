import DocForms.Proofs.Document.Fields
import DocForms.Proofs.Json.Tables
import DocForms.Proofs.Json.Texts
import DocForms.Proofs.Ranges

namespace DocForms.Json
open Number

/-- No section has the name of a context field. -/
def Apart (d : Document) : Prop :=
  ∀ s ∈ d.sections, s.id ∉ d.context.keys

theorem clash_none {d : Document} : clash? d = none ↔ Apart d := by
  rw [clash?, Option.map_eq_none_iff, List.find?_eq_none]
  exact forall₂_congr fun s _ => not_congr Fields.contains_iff

/-- The rows of a section are written with all that JSON lacks spelled out. -/
theorem of_section_eq {s : Section} (hs : s.Lawful) :
    ofSection s = .array ((rowObjects s.spelledOut).map .object) := by
  have hnames : s.spelledOut.columns.map Column.name = s.columns.map Column.name := by
    rw [Section.spelledOut, List.map_map]
    rfl
  have hcount : ((rowObjects s.spelledOut).map Json.object).length = s.rows.length := by
    simp [rowObjects, Section.spelledOut]
  rw [ofSection, ← hcount, filter_map_range_eq]
  intro index j hj
  rw [rowObjects, hnames, List.map_map, List.getElem?_map, Section.spelledOut,
    List.getElem?_mapIdx] at hj
  obtain ⟨_, hspelled, rfl⟩ := Option.map_eq_some_iff.mp hj
  obtain ⟨row, hrow, rfl⟩ := Option.map_eq_some_iff.mp hspelled
  rw [expanded_spelled hs hrow]
  rfl

section Distinct

theorem distinct_items_eq (items : List Json) : distinctItems items = items.map distinct := by
  induction items with
  | nil => rfl
  | cons j js ih => rw [distinctItems, ih, List.map_cons]

theorem distinct_values_eq (members : Members) :
    distinctValues members = members.map fun m => (m.1, m.2.distinct) := by
  induction members with
  | nil => rfl
  | cons m ms ih => rw [distinctValues, ih, List.map_cons]

/-- Members whose keys differ are kept as they are. -/
theorem distinct_members_eq {members : Members} (h : (members.map Prod.fst).Nodup) :
    distinctMembers members = members := by
  have hfold (before : Members) (hall : ((before ++ members).map Prod.fst).Nodup) :
      members.foldl (fun ms m => setMember ms m.1 m.2) before = before ++ members := by
    induction members generalizing before with
    | nil => simp
    | cons m ms ih =>
      have hnew : before.any (·.1 == m.1) = false := by
        rw [List.map_append, List.map_cons] at hall
        refine List.any_eq_false.mpr fun other hother heq => ?_
        exact (List.nodup_append.mp hall).2.2 _ (List.mem_map_of_mem hother) m.1 (by simp)
          (eq_of_beq heq)
      have hset : setMember before m.1 m.2 = before ++ [m] := by simp [setMember, hnew]
      rw [List.foldl_cons, hset, ih (List.nodup_cons.mp h).2, List.append_assoc]
      · rfl
      · simpa using hall
  exact hfold [] h

theorem distinct_array {items : List Json} (h : ∀ j ∈ items, j.distinct = j) :
    (Json.array items).distinct = .array items := by
  rw [distinct, distinct_items_eq, List.map_congr_left h, List.map_id']

theorem distinct_object {members : Members} (hkeys : (members.map Prod.fst).Nodup)
    (h : ∀ m ∈ members, m.2.distinct = m.2) : (Json.object members).distinct = .object members := by
  have hvalues : distinctValues members = members := by
    rw [distinct_values_eq, List.map_congr_left (g := id), List.map_id]
    intro m hm
    rw [h m hm]
    rfl
  rw [distinct, hvalues, distinct_members_eq hkeys]

theorem distinct_scalar {type? : Option ColumnType} {v : Value} (hv : v.LawfulScalar type?) :
    (ofValue v).distinct = ofValue v := by
  cases v with
  | float x =>
    rw [ofValue, of_finite hv.1]
    rfl
  | array items => cases hv
  | _ => rfl

theorem distinct_value {type? : Option ColumnType} {v : Value} (hv : v.Lawful type?) :
    (ofValue v).distinct = ofValue v := by
  cases hkind : v.isArray with
  | false => exact distinct_scalar ((Value.lawful_scalar hkind).mp hv)
  | true =>
    cases v with
    | array items =>
      rw [ofValue, of_values_eq]
      refine distinct_array fun j hj => ?_
      obtain ⟨item, hitem, rfl⟩ := List.mem_map.mp hj
      exact distinct_scalar (hv.2 item hitem)
    | _ => cases hkind

end Distinct

/-- The members of the object for a document with nothing left to spell out. -/
def plainMembers (e : Document) : Members :=
  e.context.entries.map (fun entry => (entry.1, ofValue entry.2)) ++
    e.sections.map fun t => (t.id, .array ((rowObjects t).map .object))

theorem members_spelled {d : Document} (hd : d.Lawful) : membersOf d = plainMembers d.spelledOut := by
  rw [membersOf, plainMembers, Document.spelledOut, List.map_map]
  congr 1
  refine List.map_congr_left fun s hs => ?_
  rw [of_section_eq (hd.sections s hs)]
  rfl

/-- A document that JSON tells in full. -/
structure Told (e : Document) : Prop where
  lawful : e.Lawful
  apart : Apart e
  sections : ∀ t ∈ e.sections, Tellable t
  floats : ∀ x, .float x ∈ e.scalars → ReadsBack (.float x)

theorem Tellable.lawful {t : Section} (ht : Tellable t) {row : Row} (hrow : row ∈ t.rows) {v : Value}
    (hv : v ∈ row) : ∃ type, v.Lawful (some type) := by
  obtain ⟨k, hk⟩ := List.mem_iff_getElem?.mp hv
  have hcolumn : k < t.columns.length := by
    rw [← ht.width row hrow]
    exact (List.getElem?_eq_some_iff.mp hk).1
  exact ⟨_, ht.cells k _ (List.getElem?_eq_getElem hcolumn) row hrow v hk⟩

/-- A member of a row holds a value of it. -/
theorem mem_row_object {t : Section} {row : Row} {m : String × Json}
    (hm : m ∈ (t.columns.map Column.name).zip (ofValues row)) : ∃ v ∈ row, m.2 = ofValue v := by
  have hvalue := (List.of_mem_zip hm).2
  rw [of_values_eq] at hvalue
  obtain ⟨v, hv, heq⟩ := List.mem_map.mp hvalue
  exact ⟨v, hv, heq.symm⟩

theorem distinct_rows {t : Section} (ht : Tellable t) :
    (Json.array ((rowObjects t).map .object)).distinct = .array ((rowObjects t).map .object) := by
  refine distinct_array fun j hj => ?_
  obtain ⟨members, hmembers, rfl⟩ := List.mem_map.mp hj
  have hnames := row_object_names ht hmembers
  obtain ⟨row, hrow, rfl⟩ := List.mem_map.mp hmembers
  refine distinct_object (by rw [hnames]; exact ht.named) fun m hm => ?_
  obtain ⟨v, hv, heq⟩ := mem_row_object hm
  obtain ⟨type, hlawful⟩ := ht.lawful hrow hv
  rw [heq, distinct_value hlawful]

/-- Scalars are legible if their floating-point numbers are read back. -/
theorem legible_scalar {type? : Option ColumnType} {v : Value} (hv : v.LawfulScalar type?)
    (hexact : ∀ x, v = .float x → ReadsBack (.float x)) (depth : Nat) :
    Legible depth (ofValue v) := by
  cases v with
  | int n =>
    rw [ofValue, legible_number]
    exact reads_back_int64 n
  | float x =>
    rw [ofValue, of_finite hv.1, legible_number]
    exact hexact x rfl
  | bool b => cases depth <;> trivial
  | string s => cases depth <;> trivial
  | array items => cases hv

theorem legible_value {type? : Option ColumnType} {v : Value} (hv : v.Lawful type?)
    (hexact : ∀ x, .float x ∈ v.scalars → ReadsBack (.float x)) (depth : Nat) :
    Legible (depth + 1) (ofValue v) := by
  cases hkind : v.isArray with
  | false =>
    refine legible_scalar ((Value.lawful_scalar hkind).mp hv) (fun x hx => hexact x ?_) _
    rw [hx]
    exact List.mem_singleton_self _
  | true =>
    cases v with
    | array items =>
      rw [ofValue, of_values_eq, Legible, legible_items]
      intro j hj
      obtain ⟨item, hitem, rfl⟩ := List.mem_map.mp hj
      refine legible_scalar (hv.2 item hitem) (fun x hx => hexact x ?_) _
      rw [← hx]
      exact hitem
    | _ => cases hkind

theorem legible_rows {t : Section} (ht : Tellable t)
    (hexact : ∀ row ∈ t.rows, ∀ v ∈ row, ∀ x, .float x ∈ v.scalars → ReadsBack (.float x))
    (depth : Nat) : Legible (depth + 3) (.array ((rowObjects t).map .object)) := by
  rw [Legible, legible_items]
  intro j hj
  obtain ⟨members, hmembers, rfl⟩ := List.mem_map.mp hj
  obtain ⟨row, hrow, rfl⟩ := List.mem_map.mp hmembers
  rw [Legible, legible_members]
  intro m hm
  obtain ⟨v, hv, heq⟩ := mem_row_object hm
  obtain ⟨type, hlawful⟩ := ht.lawful hrow hv
  rw [heq]
  exact legible_value hlawful (hexact row hrow v hv) depth

/-- The text of a document with nothing left to spell out. -/
def textOf (e : Document) : String :=
  String.ofList (prettyText 0 (.object (plainMembers e)) ++ ['\n'])

section Reading
variable {e : Document} (he : Told e)
include he

theorem plain_members_differ : ((plainMembers e).map Prod.fst).Nodup := by
  have hkeys : (plainMembers e).map Prod.fst = e.context.keys ++ e.sections.map Section.id := by
    rw [plainMembers, List.map_append, List.map_map, List.map_map]
    rfl
  rw [hkeys, List.nodup_append]
  refine ⟨e.context.nodup, he.lawful.sectionsDiffer, ?_⟩
  rintro key hkey _ hid rfl
  obtain ⟨t, ht, rfl⟩ := List.mem_map.mp hid
  exact he.apart t ht hkey

theorem distinct_plain : (Json.object (plainMembers e)).distinct = .object (plainMembers e) := by
  refine distinct_object (plain_members_differ he) fun m hm => ?_
  rcases List.mem_append.mp hm with hm | hm
  · obtain ⟨entry, hentry, rfl⟩ := List.mem_map.mp hm
    exact distinct_value (he.lawful.context entry hentry).2
  · obtain ⟨t, ht, rfl⟩ := List.mem_map.mp hm
    exact distinct_rows (he.sections t ht)

theorem legible_plain : Legible depthLimit (.object (plainMembers e)) := by
  rw [depthLimit, Legible, legible_members]
  intro m hm
  rcases List.mem_append.mp hm with hm | hm
  · obtain ⟨entry, hentry, rfl⟩ := List.mem_map.mp hm
    refine legible_value (he.lawful.context entry hentry).2 (fun x hx => he.floats x ?_) _
    exact List.mem_flatMap.mpr ⟨entry.2, List.mem_append_left _ (List.mem_map_of_mem hentry), hx⟩
  · obtain ⟨t, ht, rfl⟩ := List.mem_map.mp hm
    refine legible_rows (he.sections t ht) (fun row hrow v hv x hx => he.floats x ?_) _
    have hcell : v ∈ e.sections.flatMap fun s => s.rows.flatten :=
      List.mem_flatMap.mpr ⟨t, ht, List.mem_flatten.mpr ⟨row, hrow, hv⟩⟩
    exact List.mem_flatMap.mpr ⟨v, List.mem_append_right _ hcell, hx⟩

theorem read_text_of : read (textOf e) = .ok (.object (plainMembers e)) :=
  read_pretty (legible_plain he)

end Reading

/-- A valid document is written with all that JSON lacks spelled out, if no section has the name of a
context field. -/
theorem write_apart {d : Document} (hd : d.isValid = true) (hapart : Apart d) :
    write d = .ok (textOf d.spelledOut) := by
  rw [write, ofDocument, Document.requireValid, if_pos hd, ok_bind, clash_none.mpr hapart,
    members_spelled (Document.is_valid_iff.mp hd)]
  rfl

end DocForms.Json
