import DocForms.Proofs.Document.Fields
import DocForms.Proofs.Json.Tables

namespace DocForms.Json

mutual
/-- The leaves of a value under a name, each with its own name. -/
def leavesUnder (name : String) : Json → Members
  | .object members => leaves name members
  | j => [(name, j)]

/-- The leaves of an object, each under the keys on the way to it, joined with points. -/
def leaves (path : String) : Members → Members
  | [] => []
  | (key, j) :: ms => leavesUnder (memberName path key) j ++ leaves path ms
end

theorem leaves_under_leaf {name : String} {j : Json} (h : j.isObject = false) :
    leavesUnder name j = [(name, j)] := by
  cases j with
  | object members => cases h
  | _ => rfl

/-- Members that are no objects are the leaves themselves. -/
theorem leaves_flat {members : Members} (h : ∀ m ∈ members, m.2.isObject = false) :
    leaves "" members = members := by
  induction members with
  | nil => rfl
  | cons m ms ih =>
    rw [leaves, leaves_under_leaf (h m (by simp)), ih fun m' hm' => h m' (List.mem_cons_of_mem _ hm')]
    rfl

/-- The rows of a leaf that is a section. -/
def rowsOf? : Json → Option (List Members)
  | .array items => sectionRows? items
  | _ => none

theorem members_of_objects (rows : List Members) :
    (rows.map Json.object).mapM members? = some rows := by
  induction rows with
  | nil => rfl
  | cons row rows ih =>
    rw [List.map_cons, List.mapM_cons, ih]
    rfl

theorem rows_of_objects {rows : List Members} (h : rows ≠ []) :
    rowsOf? (.array (rows.map .object)) = some rows := by
  rw [rowsOf?, sectionRows?, if_neg (by simpa using h), members_of_objects]

/-- A section has rows. -/
theorem rows_ne_nil {j : Json} {rows : List Members} (h : rowsOf? j = some rows) : rows ≠ [] := by
  cases j with
  | array items =>
    rw [rowsOf?, sectionRows?] at h
    cases items with
    | nil => cases h
    | cons item items =>
      rw [List.isEmpty_cons, if_neg Bool.false_ne_true, List.mapM_cons] at h
      obtain ⟨row, -, hrest⟩ := Option.bind_eq_some_iff.mp h
      obtain ⟨rest, -, hrows⟩ := Option.bind_eq_some_iff.mp hrest
      cases hrows
      exact List.cons_ne_nil row rest
  | _ => cases h

def takeLeaf (d : Draft) (leaf : String × Json) : Except Failure Draft :=
  addLeaf d leaf.1 leaf.2

mutual
theorem add_member_eq (path : String) (d : Draft) (key : String) :
    (j : Json) → addMember path d key j = (leavesUnder (memberName path key) j).foldlM takeLeaf d
  | .object members => by
    rw [addMember, leavesUnder, add_members_eq]
  | .null | .bool _ | .number _ | .string _ | .array _ => by
    rw [addMember, leavesUnder, List.foldlM_cons, takeLeaf]
    · simp
    all_goals exact nofun

theorem add_members_eq (path : String) (d : Draft) :
    (members : Members) → addMembers path d members = (leaves path members).foldlM takeLeaf d
  | [] => rfl
  | (key, j) :: ms => by
    rw [addMembers, leaves, List.foldlM_append, add_member_eq path d key j]
    congr 1
    funext d'
    exact add_members_eq path d' ms
end

theorem take_leaf_eq (d : Draft) (name : String) (j : Json) :
    takeLeaf d (name, j) = match rowsOf? j with
      | some rows => readSection name rows >>= fun s => .ok { d with sections := d.sections ++ [s] }
      | none => readFlat readScalar name j >>= fun v =>
        if d.context.contains name then shapeFault name .repeatedKey
        else .ok { d with context := d.context.insert name v } := by
  cases j with
  | array items =>
    rw [takeLeaf, addLeaf, rowsOf?]
    cases sectionRows? items <;> rfl
  | _ => rfl

/-- A leaf is added as a section if it has rows, and else as a field with a new name. -/
theorem take_leaf_ok {d d' : Draft} {name : String} {j : Json} :
    takeLeaf d (name, j) = .ok d' ↔
      (∃ rows s, rowsOf? j = some rows ∧ readSection name rows = .ok s ∧
        d' = { d with sections := d.sections ++ [s] }) ∨
      (rowsOf? j = none ∧ ∃ v, readFlat readScalar name j = .ok v ∧ name ∉ d.context.keys ∧
        d' = { d with context := d.context.insert name v }) := by
  have hnew : name ∉ d.context.keys ↔ d.context.contains name = false :=
    ⟨Fields.contains_eq_false, Fields.not_mem_of_contains⟩
  rw [take_leaf_eq]
  cases rowsOf? j with
  | some rows =>
    simp only [bind_eq_ok]
    constructor
    · rintro ⟨s, hs, ⟨⟩⟩
      exact .inl ⟨rows, s, rfl, hs, rfl⟩
    · rintro (⟨_, s, ⟨⟩, hs, rfl⟩ | ⟨⟨⟩, _⟩)
      exact ⟨s, hs, rfl⟩
  | none =>
    simp only [bind_eq_ok, hnew]
    cases d.context.contains name <;> simp [shapeFault, eq_comm]

/-- What the leaves of an object give: the entries of a context and the sections, each in order. -/
inductive Takes : Members → List (String × Value) → List Section → Prop
  | nil : Takes [] [] []
  | field {name : String} {j : Json} {v : Value} {ls : Members} {es : List (String × Value)}
      {ss : List Section} (hrows : rowsOf? j = none) (hread : readFlat readScalar name j = .ok v)
      (hrest : Takes ls es ss) : Takes ((name, j) :: ls) ((name, v) :: es) ss
  | table {name : String} {j : Json} {rows : List Members} {s : Section} {ls : Members}
      {es : List (String × Value)} {ss : List Section} (hrows : rowsOf? j = some rows)
      (hread : readSection name rows = .ok s) (hrest : Takes ls es ss) :
      Takes ((name, j) :: ls) es (s :: ss)

section Taken
variable {ls : Members} {es : List (String × Value)} {ss : List Section}

/-- The names of the leaves that are fields. -/
def fieldNames (ls : Members) : List String :=
  (ls.filter fun leaf => (rowsOf? leaf.2).isNone).map Prod.fst

/-- The names of the leaves that are sections. -/
def tableNames (ls : Members) : List String :=
  (ls.filter fun leaf => (rowsOf? leaf.2).isSome).map Prod.fst

theorem Takes.append {ls' : Members} {es' : List (String × Value)} {ss' : List Section}
    (h : Takes ls es ss) (h' : Takes ls' es' ss') : Takes (ls ++ ls') (es ++ es') (ss ++ ss') := by
  induction h with
  | nil => exact h'
  | field hrows hread _ ih => exact .field hrows hread ih
  | table hrows hread _ ih => exact .table hrows hread ih

theorem Takes.names (h : Takes ls es ss) :
    es.map Prod.fst = fieldNames ls ∧ ss.map Section.id = tableNames ls := by
  induction h with
  | nil => exact ⟨rfl, rfl⟩
  | field hrows _ _ ih => simp [fieldNames, tableNames, hrows, ih.1, ih.2]
  | table hrows hread _ ih =>
    simp [fieldNames, tableNames, hrows, ih.1, ih.2, section_id hread]

theorem Takes.mem_sections (h : Takes ls es ss) {s : Section} (hs : s ∈ ss) :
    ∃ rows, rows ≠ [] ∧ readSection s.id rows = .ok s := by
  induction h with
  | nil => cases hs
  | field _ _ _ ih => exact ih hs
  | table hrows hread _ ih =>
    rcases List.mem_cons.mp hs with rfl | hs
    · refine ⟨_, rows_ne_nil hrows, ?_⟩
      rwa [section_id hread]
    · exact ih hs

end Taken

/-- Leaves are taken into a draft if all can be read and no field is there twice. -/
theorem take_leaves_ok {ls : Members} {d d' : Draft} :
    ls.foldlM takeLeaf d = .ok d' ↔ ∃ es ss, Takes ls es ss ∧
      d'.context.entries = d.context.entries ++ es ∧ d'.sections = d.sections ++ ss := by
  constructor
  · intro h
    induction ls generalizing d with
    | nil =>
      cases h
      exact ⟨[], [], .nil, by simp⟩
    | cons leaf ls ih =>
      obtain ⟨t, ht, hrest⟩ := bind_eq_ok.mp h
      obtain ⟨es, ss, htakes, hentries, hsections⟩ := ih hrest
      rcases take_leaf_ok.mp ht with ⟨rows, s, hrows, hread, rfl⟩ | ⟨hrows, v, hread, hnew, rfl⟩
      · exact ⟨es, s :: ss, .table hrows hread htakes, hentries, by simp [hsections]⟩
      · refine ⟨(leaf.1, v) :: es, ss, .field hrows hread htakes, ?_, hsections⟩
        rw [hentries, Fields.insert_entries hnew, List.append_assoc]
        rfl
  · rintro ⟨es, ss, htakes, hentries, hsections⟩
    induction htakes generalizing d with
    | nil =>
      rw [List.append_nil] at hentries hsections
      obtain ⟨c, ss⟩ := d
      obtain ⟨c', ss'⟩ := d'
      obtain rfl : c' = c := Fields.eq_of_entries hentries
      cases hsections
      rfl
    | @field name j v ls es ss hrows hread _ ih =>
      have hnew : name ∉ d.context.keys := Fields.new_key hentries
      rw [List.foldlM_cons, take_leaf_ok.mpr (.inr ⟨hrows, v, hread, hnew, rfl⟩), ok_bind]
      exact ih (by rw [Fields.insert_entries hnew, hentries, List.append_assoc]; rfl) hsections
    | @table name j rows s ls es ss hrows hread _ ih =>
      rw [List.foldlM_cons, take_leaf_ok.mpr (.inl ⟨rows, s, hrows, hread, rfl⟩), ok_bind]
      exact ih hentries (by rw [hsections, List.append_assoc]; rfl)

theorem check_read_ok {lineOf : Violation → Nat} {d e : Document} :
    d.checkRead lineOf = .ok e ↔ d.Lawful ∧ d = e := by
  rw [Document.checkRead, ← Document.violations_nil]
  cases d.violations <;> simp

/-- A document is read from an object if its leaves give it and it keeps the rules of documents. -/
theorem to_document_ok {j : Json} {d : Document} :
    toDocument j = .ok d ↔ ∃ ms, j.distinct = .object ms ∧
      Takes (leaves "" ms) d.context.entries d.sections ∧ d.Lawful := by
  rw [toDocument]
  cases j.distinct with
  | object ms =>
    simp only [add_members_eq, bind_eq_ok, take_leaves_ok, check_read_ok]
    constructor
    · rintro ⟨draft, ⟨es, ss, htakes, hentries, hsections⟩, hlawful, rfl⟩
      obtain rfl : draft.context.entries = es := hentries
      obtain rfl : draft.sections = ss := hsections
      exact ⟨ms, rfl, htakes, hlawful⟩
    · rintro ⟨_, ⟨⟩, htakes, hlawful⟩
      exact ⟨⟨d.context, d.sections⟩, ⟨_, _, htakes, rfl, rfl⟩, hlawful, rfl⟩
  | _ => simp

end DocForms.Json
