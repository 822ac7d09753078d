import DocForms.Failure
import DocForms.Proofs.Document.Violations
import DocForms.Proofs.Text.Fields
import DocForms.Proofs.Text.Words
import Mathlib.Data.List.Nodup

namespace DocForms
open Text

/-- A part of a document that can break a rule. -/
inductive Part
  | field (key : String)
  | table (id : String)
deriving DecidableEq

namespace Document

/-- The violations of a context, each with the field that raises it. -/
def raisedByFields (c : Context) : List (Part × Violation) :=
  c.entries.flatMap fun (key, value) =>
    (nameViolations key ++ value.violations none ("context." ++ key)).map (.field key, ·)

def raisedBySections : (seen : List String) → List Section → List (Part × Violation)
  | _, [] => []
  | seen, s :: ss =>
    ((if seen.contains s.id then [Violation.duplicateSectionId s.id] else []) ++ s.violations).map
      (.table s.id, ·) ++ raisedBySections (s.id :: seen) ss

/-- The violations of a document, each with the part that raises it. -/
def raised (d : Document) : List (Part × Violation) :=
  raisedByFields d.context ++ raisedBySections [] d.sections

theorem raised_by_sections (seen : List String) (sections : List Section) :
    (raisedBySections seen sections).map Prod.snd = sectionViolations seen sections := by
  induction sections generalizing seen with
  | nil => rfl
  | cons s ss ih =>
    rw [raisedBySections, sectionViolations, List.map_append, ih, List.map_map]
    exact congrArg (· ++ _) (List.map_id _)

/-- What the parts raise is what the check lists. -/
theorem raised_violations (d : Document) : d.raised.map Prod.snd = d.violations := by
  rw [raised, violations, List.map_append, raised_by_sections, raisedByFields, List.map_flatMap,
    contextViolations]
  congr 2
  funext e
  rw [List.map_map]
  exact List.map_id _

end Document

theorem name_no_bracket {name : String} (h : isName name = true) : '[' ∉ name.toList :=
  (name_is_word h).not_mem (by decide)

/-- The location of a cell starts with the id of its section. -/
theorem cell_location_section {id : String} (h : '[' ∉ id.toList) (row : Nat) (column : String) :
    Violation.locationSection? (Section.cellLocation id row column) = some id := by
  have hcut : (Section.cellLocation id row column).toList =
      id.toList ++ '[' :: (toString row ++ "]." ++ column).toList := by
    simp [Section.cellLocation, String.toList_append, toString]
  rw [Violation.locationSection?, hcut, split_once_append h]
  exact congrArg some String.ofList_toList

theorem Value.Fault.section_eq {type? : Option ColumnType} {location : String} {v : Value}
    {x : Violation} (h : v.Fault type? location x) :
    x.section? = Violation.locationSection? location := by
  cases h <;> rfl

/-- Whether a violation is about a name: it does not tell the section that it belongs to. -/
def Violation.OfName : Violation → Prop
  | .invalidName _ => True
  | _ => False

namespace Section
variable {s : Section} {x : Violation}

theorem Fault.section_eq (h : s.Fault x) (hid : isName s.id = true) :
    x.section? = some s.id ∨ x.OfName := by
  cases h with
  | badId | badColumn => exact .inr trivial
  | cell index row hrow p hp x hx =>
    rw [hx.section_eq]
    exact .inl (cell_location_section (name_no_bracket hid) index p.1.name)
  | _ => exact .inl rfl

/-- A section raises no violation about a name if it has names only. -/
theorem Fault.not_of_name (h : s.Fault x) (hid : isName s.id = true)
    (hcolumns : ∀ c ∈ s.columns, isName c.name = true) : ¬x.OfName := by
  intro hname
  cases h with
  | badId hbad => simp [hid] at hbad
  | badColumn c hc hbad => simp [hcolumns c hc] at hbad
  | cell index row hrow p hp x hx => cases hx <;> exact hname
  | _ => exact hname

/-- The first violation of a section names it or is about a name: the id is checked before all else. -/
theorem first_violation (h : s.violations.head? = some x) :
    s.Fault x ∧ (x.section? = some s.id ∨ x.OfName) := by
  have hfault : s.Fault x := fault_of_violation (List.mem_of_head? h)
  refine ⟨hfault, ?_⟩
  cases hid : isName s.id with
  | true => exact hfault.section_eq hid
  | false =>
    right
    have hbad : nameViolations s.id = [.invalidName s.id] := by simp [nameViolations, hid]
    simp only [violations, hbad, List.append_assoc, List.cons_append, List.head?_cons] at h
    cases h
    trivial

end Section

namespace Document

/-- A violation that a section raises first. -/
def RaisedFirst (s : Section) (x : Violation) : Prop :=
  x = .duplicateSectionId s.id ∨ s.violations.head? = some x

theorem first_raised_by_sections {seen : List String} {sections : List Section} {part : Part}
    {x : Violation} (h : (raisedBySections seen sections).head? = some (part, x)) :
    ∃ s ∈ sections, part = .table s.id ∧ RaisedFirst s x := by
  induction sections generalizing seen with
  | nil => cases h
  | cons s ss ih =>
    rw [raisedBySections, List.head?_append, Option.or_eq_some_iff] at h
    rcases h with hhere | ⟨-, hrest⟩
    · refine ⟨s, by simp, ?_⟩
      rw [List.head?_map] at hhere
      obtain ⟨y, hy, heq⟩ := Option.map_eq_some_iff.mp hhere
      cases heq
      refine ⟨rfl, ?_⟩
      rw [List.head?_append, Option.or_eq_some_iff] at hy
      rcases hy with htwice | ⟨-, hfirst⟩
      · exact .inl (mem_unless.mp (List.mem_of_head? htwice)).2
      · exact .inr hfirst
    · obtain ⟨t, ht, hpart, hx⟩ := ih hrest
      exact ⟨t, List.mem_cons_of_mem _ ht, hpart, hx⟩

theorem RaisedFirst.section_eq {s : Section} {x : Violation} (h : RaisedFirst s x) :
    x.section? = some s.id ∨ x.OfName := by
  rcases h with rfl | hfirst
  · exact .inl rfl
  · exact (Section.first_violation hfirst).2

theorem RaisedFirst.not_of_name {s : Section} {x : Violation} (h : RaisedFirst s x)
    (hid : isName s.id = true) (hcolumns : ∀ c ∈ s.columns, isName c.name = true) : ¬x.OfName := by
  rcases h with rfl | hfirst
  · exact id
  · exact (Section.first_violation hfirst).1.not_of_name hid hcolumns

/-- A field under a name raises no violation that names a section. -/
theorem field_violation {c : Context} (hkeys : ∀ k ∈ c.keys, isName k = true) {part : Part}
    {x : Violation} (h : (part, x) ∈ raisedByFields c) :
    ∃ key ∈ c.keys, part = .field key ∧ x.section? = none := by
  obtain ⟨⟨key, value⟩, he, hmem⟩ := List.mem_flatMap.mp h
  obtain ⟨y, hy, heq⟩ := List.mem_map.mp hmem
  cases heq
  have hkey : key ∈ c.keys := List.mem_map_of_mem he
  refine ⟨key, hkey, rfl, ?_⟩
  rcases List.mem_append.mp hy with hname | hvalue
  · obtain ⟨-, rfl⟩ := name_violation hname
    rfl
  · have hbracket : '[' ∉ ("context." ++ key).toList := by
      rw [String.toList_append, List.mem_append, not_or]
      exact ⟨by decide, name_no_bracket (hkeys key hkey)⟩
    rw [(Value.fault_of_violation hvalue).section_eq, Violation.locationSection?,
      split_once_bare hbracket]
    rfl

/-- The part that raises the first violation: a field, which no violation names, or a section, which the
violation names unless it is about a name. -/
theorem first_raised {d : Document} (hkeys : ∀ k ∈ d.context.keys, isName k = true) {x : Violation}
    {rest : List Violation} (h : d.violations = x :: rest) :
    ∃ part, d.raised.head? = some (part, x) ∧
      ((∃ key ∈ d.context.keys, part = .field key ∧ x.section? = none) ∨
        ∃ s ∈ d.sections, part = .table s.id ∧ RaisedFirst s x) := by
  rw [← raised_violations] at h
  obtain ⟨⟨part, y⟩, others, hraised, rfl, -⟩ := List.map_eq_cons_iff.mp h
  have hhead : d.raised.head? = some (part, y) := by rw [hraised, List.head?_cons]
  refine ⟨part, hhead, ?_⟩
  rw [raised, List.head?_append, Option.or_eq_some_iff] at hhead
  rcases hhead with hfield | ⟨-, htable⟩
  · exact .inl (field_violation hkeys (List.mem_of_head? hfield))
  · exact .inr (first_raised_by_sections htable)

/-- A document that was read is refused for its first violation. -/
theorem check_read_error {lineOf : Violation → Nat} {d : Document} {n : Nat} {x : Violation}
    (h : d.checkRead lineOf = .error (.parse n (.violation x))) :
    n = lineOf x ∧ ∃ rest, d.violations = x :: rest := by
  rw [checkRead] at h
  split at h
  · cases h
  · rename_i rest hviolations
    cases h
    exact ⟨rfl, rest, hviolations⟩

end Document

/-- Where ids differ, what is found by an id is the only one that has it. -/
theorem find_placed {α : Type} {placed : List α} (line : α → Nat) {id : α → String}
    (hdiffer : (placed.map id).Nodup) {p : α} (hp : p ∈ placed) :
    (placed.find? (id · == id p)).map line = some (line p) ∧
      ∀ m, (m, id p) ∈ placed.map (fun q => (line q, id q)) ↔ m = line p := by
  have honly : ∀ q ∈ placed, id q = id p → q = p := fun q hq heq =>
    List.inj_on_of_nodup_map hdiffer hq hp heq
  constructor
  · cases hfound : placed.find? (id · == id p) with
    | none => exact absurd (beq_self_eq_true _) (List.find?_eq_none.mp hfound p hp)
    | some q =>
      have hid := List.find?_some hfound
      rw [honly q (List.mem_of_find?_eq_some hfound) (eq_of_beq hid)]
      rfl
  · intro m
    constructor
    · intro hm
      obtain ⟨q, hq, heq⟩ := List.mem_map.mp hm
      obtain ⟨rfl, hid⟩ := Prod.mk.inj heq
      rw [honly q hq hid]
    · rintro rfl
      exact List.mem_map_of_mem hp

/-- A failure of a text that is no document, rather than of a document that breaks a rule. -/
def Misread : Failure → Prop
  | .parse _ (.violation _) => False
  | .parse _ _ => True
  | _ => False

end DocForms
