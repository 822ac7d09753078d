import DocForms.Proofs.Json.Exports
import DocForms.Proofs.Json.Leaves

namespace DocForms.Json
open Number

theorem value_no_object (v : Value) : (ofValue v).isObject = false := by
  cases v with
  | float x => cases hx : x.isFinite <;> simp [ofValue, ofDouble, hx, isObject]
  | _ => rfl

/-- An array of scalars is no section. -/
theorem value_no_rows {type? : Option ColumnType} {v : Value} (hv : v.Lawful type?) :
    rowsOf? (ofValue v) = none := by
  cases v with
  | array items =>
    rw [ofValue, of_values_eq, rowsOf?, sectionRows?]
    cases items with
    | nil => rfl
    | cons item items =>
      have hitem : members? (ofValue item) = none := by
        have hobject := value_no_object item
        cases hj : ofValue item with
        | object members => simp [hj, isObject] at hobject
        | _ => rfl
      rw [List.map_cons, List.isEmpty_cons, if_neg Bool.false_ne_true, List.mapM_cons, hitem]
      rfl
  | float x =>
    rw [ofValue, of_finite hv.1]
    rfl
  | _ => rfl

theorem takes_fields {es : List (String × Value)} (h : ∀ entry ∈ es, entry.2.Lawful none) :
    Takes (es.map fun entry => (entry.1, ofValue entry.2)) es [] := by
  induction es with
  | nil => exact .nil
  | cons entry es ih =>
    have hentry := h entry (by simp)
    exact .field (value_no_rows hentry)
      (read_flat_value (fun v hv location => read_scalar_value hv location) hentry entry.1)
      (ih fun entry' hentry' => h entry' (List.mem_cons_of_mem _ hentry'))

theorem takes_tables {ss : List Section} (h : ∀ t ∈ ss, Tellable t) :
    Takes (ss.map fun t => (t.id, .array ((rowObjects t).map .object))) [] ss := by
  induction ss with
  | nil => exact .nil
  | cons t ss ih =>
    have ht := h t (by simp)
    have hrows : rowObjects t ≠ [] := by simpa [rowObjects] using ht.rows
    exact .table (rows_of_objects hrows) (read_told_section ht)
      (ih fun t' ht' => h t' (List.mem_cons_of_mem _ ht'))

theorem leaves_plain (e : Document) : leaves "" (plainMembers e) = plainMembers e := by
  refine leaves_flat fun m hm => ?_
  rcases List.mem_append.mp hm with hm | hm
  · obtain ⟨entry, hentry, rfl⟩ := List.mem_map.mp hm
    exact value_no_object entry.2
  · obtain ⟨t, ht, rfl⟩ := List.mem_map.mp hm
    rfl

/-- A document that JSON tells in full is read from its text. -/
theorem read_told {e : Document} (he : Told e) : readDocument (textOf e) = .ok e := by
  have hfields := takes_fields fun entry hentry => (he.lawful.context entry hentry).2
  have htakes : Takes (leaves "" (plainMembers e)) e.context.entries e.sections := by
    have hboth := hfields.append (takes_tables he.sections)
    rw [leaves_plain, plainMembers]
    rwa [List.append_nil, List.nil_append] at hboth
  rw [readDocument, read_text_of he, map_error_ok, ok_bind]
  exact to_document_ok.mpr ⟨_, distinct_plain he, htakes, he.lawful⟩

/-- Spelled out, a document is told in full by JSON. -/
theorem told_spelled {d : Document} (hd : d.Lawful) (hapart : Apart d)
    (hrows : ∀ s ∈ d.sections, s.rows ≠ [])
    (htold : ∀ s ∈ d.sections, ∀ (k : Nat) c, s.storedColumns[k]? = some c → c.type ≠ .string →
      s.scalarsAt k ≠ [])
    (hexact : ∀ x, .float x ∈ d.scalars → ReadsBack (.float x)) : Told d.spelledOut := by
  constructor
  case lawful => exact spelled_lawful hd
  case apart =>
    intro t ht
    obtain ⟨s, hs, rfl⟩ := List.mem_map.mp ht
    exact hapart s hs
  case sections =>
    intro t ht
    obtain ⟨s, hs, rfl⟩ := List.mem_map.mp ht
    exact tellable_spelled (hd.sections s hs) (hrows s hs) (htold s hs)
  case floats => exact fun x hx => hexact x (spelled_floats hx)

/-- A document comes back from JSON with its auto-id columns stored as integers and its base-62 columns
as integers, and with all else as it was. It needs sections that have rows and other names than the
context fields, and a scalar in each stored column that is not one of strings. -/
theorem export_reads_back (d : Document) (hd : d.isValid = true)
    (hapart : ∀ s ∈ d.sections, s.id ∉ d.context.keys) (hrows : ∀ s ∈ d.sections, s.rows ≠ [])
    (htold : ∀ s ∈ d.sections, ∀ (k : Nat) c, s.storedColumns[k]? = some c → c.type ≠ .string →
      s.scalarsAt k ≠ [])
    (hexact : ∀ x, .float x ∈ d.scalars → ReadsBack (.float x)) :
    ∃ text, write d = .ok text ∧ readDocument text = .ok d.spelledOut :=
  ⟨textOf d.spelledOut, write_apart hd hapart,
    read_told (told_spelled (Document.is_valid_iff.mp hd) hapart hrows htold hexact)⟩

section Example

/-- A document with all that JSON lacks: row numbers, base-62 numbers, and types that only one value of
a column tells. -/
def ledger : Document where
  context := ⟨[("name", .string "007"), ("none", .array []), ("mixed", .array [.string "1", .int 2])],
    by decide⟩
  sections := [
    ⟨"books", [⟨"title", .string⟩, ⟨"id", .autoId⟩, ⟨"copies", .base62⟩, ⟨"price", .float⟩],
      [[.string "12", .array [.int 61, .int 62], .array []],
        [.array [], .int 3, .float ⟨0x3FF8000000000000⟩]]⟩]

example : ledger.spelledOut.sections = [
    ⟨"books", [⟨"title", .string⟩, ⟨"id", .int⟩, ⟨"copies", .int⟩, ⟨"price", .float⟩],
      [[.string "12", .int 1, .array [.int 61, .int 62], .array []],
        [.array [], .int 2, .int 3, .float ⟨0x3FF8000000000000⟩]]⟩] := by
  decide

theorem export_reads_back_ledger :
    ledger.isValid = true ∧ (∀ s ∈ ledger.sections, s.id ∉ ledger.context.keys) ∧
    (∀ x, .float x ∈ ledger.scalars → ReadsBack (.float x)) ∧
    ∃ text, write ledger = .ok text ∧ readDocument text = .ok ledger.spelledOut := by
  have hvalid : ledger.isValid = true := by decide
  have hapart : ∀ s ∈ ledger.sections, s.id ∉ ledger.context.keys := by decide
  have hrows : ∀ s ∈ ledger.sections, s.rows ≠ [] := by decide
  have htold : ∀ s ∈ ledger.sections, ∀ (k : Nat) c, s.storedColumns[k]? = some c →
      c.type ≠ .string → s.scalarsAt k ≠ [] := by
    intro s hs k c hc hne
    rw [List.mem_singleton.mp hs] at hc ⊢
    match k with
    | 0 =>
      cases hc
      exact absurd rfl hne
    | 1 => decide
    | 2 => decide
    | k + 3 => cases hc
  have hexact : ∀ x, .float x ∈ ledger.scalars → ReadsBack (.float x) := by
    intro x hx
    obtain rfl : x = ⟨0x3FF8000000000000⟩ := by
      simpa [ledger, Document.scalars, Fields.values, Value.scalars] using hx
    decide +kernel
  exact ⟨hvalid, hapart, hexact, export_reads_back ledger hvalid hapart hrows htold hexact⟩

end Example
end DocForms.Json
