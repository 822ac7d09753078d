import DocForms.Compact.Reader
import DocForms.Proofs.Document.Parts
import DocForms.Proofs.Outcomes

namespace DocForms.Compact
open Text

/-- What a line of compact text is. -/
inductive LineKind
  | blank
  | context (fields : List Char)
  | reference (reference : List Char)
  | heading (heading : List Char)
  | row (text : List Char)

def LineKind.of (l : List Char) : LineKind :=
  let text := dropEndWhile (· == '\r') l
  if isBlankLine text then .blank
  else
    match text with
    | '#' :: 'c' :: ':' :: fields => .context fields
    | '#' :: ':' :: rest => .reference rest
    | '#' :: rest => .heading rest
    | _ => .row text

theorem add_line_eq (d : Draft) (line : Nat × List Char) : d.addLine line =
    match LineKind.of line.2 with
    | .blank => .ok d
    | .context fields => d.close.addContext line.1 fields
    | .reference reference => d.close.addReference line.1 reference
    | .heading heading => d.close.openSection line.1 heading
    | .row text => d.addRow line.1 text := by
  rw [Draft.addLine, LineKind.of]
  split
  · rfl
  · split <;> simp_all

section Failures

theorem add_context_entry_fails (line : Nat) (d : Draft) (entry : List Char) :
    FailsOnly Misread (d.addContextEntry line entry) := by
  rw [Draft.addContextEntry]
  split
  · rename_i key raw _
    dsimp only
    split
    · exact .error trivial
    · split
      · exact .error trivial
      · exact FailsOnly.bind (.map_error _ fun _ => trivial) fun v => .ok _
  · exact .error trivial

theorem add_context_fails (line : Nat) (d : Draft) (fields : List Char) :
    FailsOnly Misread (d.addContext line fields) := by
  rw [Draft.addContext]
  split
  · exact .ok _
  · exact FailsOnly.bind (.map_error _ fun _ => trivial) fun entries =>
      .foldlM (add_context_entry_fails line) entries _

theorem add_reference_fails (line : Nat) (d : Draft) (reference : List Char) :
    FailsOnly Misread (d.addReference line reference) := by
  rw [Draft.addReference]
  split
  · dsimp only
    split
    · exact .error trivial
    · split
      · exact .error trivial
      · exact FailsOnly.bind (.map_error _ fun _ => trivial) fun target => .ok _
  · exact .error trivial

theorem open_section_fails (line : Nat) (d : Draft) (heading : List Char) :
    FailsOnly Misread (d.openSection line heading) := by
  rw [Draft.openSection]
  split
  · split
    · exact .error trivial
    · split
      · split
        · exact .error trivial
        · dsimp only
          split
          · exact .error trivial
          · exact FailsOnly.bind (.map_error _ fun _ => trivial) fun columns => .ok _
      · exact .error trivial
  · exact .error trivial

theorem add_row_fails (line : Nat) (d : Draft) (text : List Char) :
    FailsOnly Misread (d.addRow line text) := by
  rw [Draft.addRow]
  split
  · refine FailsOnly.bind (.map_error _ fun _ => trivial) fun fields => ?_
    dsimp only
    split
    · exact .error trivial
    · refine FailsOnly.bind (.mapM (fun cell => ?_) _) fun row => .ok _
      exact .map_error _ fun _ => trivial
  · exact .error trivial

theorem add_line_fails (d : Draft) (line : Nat × List Char) : FailsOnly Misread (d.addLine line) := by
  rw [add_line_eq]
  split
  · exact .ok _
  · exact add_context_fails _ _ _
  · exact add_reference_fails _ _ _
  · exact open_section_fails _ _ _
  · exact add_row_fails _ _ _

end Failures

section Effects
variable {line : Nat} {d d' : Draft}

theorem add_context_entry_ok {entry : List Char} (h : d.addContextEntry line entry = .ok d') :
    ∃ key raw v, splitOnce '|' entry = some (key, raw) ∧ isNameText key = true ∧
      d.context.contains (String.ofList key) = false ∧
      d' = { d with context := d.context.insert (String.ofList key) v } := by
  rw [Draft.addContextEntry] at h
  split at h
  · rename_i key raw hsplit
    dsimp only at h
    split at h
    · cases h
    · rename_i hname
      split at h
      · cases h
      · rename_i hnew
        obtain ⟨v, -, hd⟩ := bind_eq_ok.mp h
        cases hd
        exact ⟨key, raw, v, hsplit, by simpa using hname, by simpa using hnew, rfl⟩
  · cases h

/-- A text between the semicolons of a context line. -/
def ContextEntry (fields entry : List Char) : Prop :=
  fields ≠ [] ∧ ∃ entries, splitQuoted ';' fields = .ok entries ∧ entry ∈ entries

/-- The entries of a context line are taken in one after another. -/
theorem add_context_ok {fields : List Char} (h : d.addContext line fields = .ok d') :
    ∃ entries : List (List Char), (∀ entry, entry ∈ entries ↔ ContextEntry fields entry) ∧
      entries.foldlM (Draft.addContextEntry line) { d with contextLine := d.contextLine <|> some line } =
        .ok d' := by
  rw [Draft.addContext] at h
  split at h
  · rename_i hempty
    exact ⟨[], fun entry => ⟨nofun, fun hentry => absurd (List.isEmpty_iff.mp hempty) hentry.1⟩, h⟩
  · rename_i hne
    obtain ⟨entries, hentries, hfold⟩ := bind_eq_ok.mp h
    have hsplit := map_error_eq_ok.mp hentries
    refine ⟨entries, fun entry => ⟨fun hentry => ?_, fun hentry => ?_⟩, hfold⟩
    · exact ⟨fun hnil => hne (List.isEmpty_iff.mpr hnil), entries, hsplit, hentry⟩
    · obtain ⟨-, all, hall, hmem⟩ := hentry
      cases hsplit.symm.trans hall
      exact hmem

theorem add_reference_ok {reference : List Char} (h : d.addReference line reference = .ok d') :
    ∃ key target, isNameText key = true ∧
      d' = { d with references := d.references.insert (String.ofList key) (String.ofList target) } := by
  rw [Draft.addReference] at h
  split at h
  · rename_i key raw _
    dsimp only at h
    split at h
    · cases h
    · rename_i hname
      split at h
      · cases h
      · obtain ⟨target, -, hinsert⟩ := bind_eq_ok.mp h
        cases hinsert
        exact ⟨key, target, by simpa using hname, rfl⟩
  · cases h

theorem read_column_named {token : List Char} {c : Column} (h : readColumn token = .ok c) :
    isName c.name = true := by
  have hnamed (parsed : Except CompactFault (List Char × ColumnType))
      (hparsed : (parsed >>= fun p => if isNameText p.1 then .ok ⟨String.ofList p.1, p.2⟩
        else .error (.invalidColumnName (String.ofList p.1))) = .ok c) : isName c.name = true := by
    obtain ⟨⟨name, type⟩, -, hcheck⟩ := bind_eq_ok.mp hparsed
    dsimp only at hcheck
    split at hcheck
    · rename_i hname
      cases hcheck
      simpa [isName] using hname
    · cases hcheck
  unfold readColumn at h
  dsimp only at h
  split at h
  · exact hnamed _ h
  · split at h
    · split at h <;> exact hnamed _ h
    · exact hnamed _ h

/-- A heading opens a section that was not there before, under a name and with names as columns. -/
theorem open_section_ok {heading : List Char} (h : d.openSection line heading = .ok d') :
    ∃ id rest columns, splitOnce '(' heading = some (id, rest) ∧ isNameText id = true ∧
      (d.placed.any (·.table.id == String.ofList id)) = false ∧
      (∀ c ∈ columns, isName c.name = true) ∧
      d' = { d with current := some ⟨line, ⟨String.ofList id, columns, []⟩⟩ } := by
  rw [Draft.openSection] at h
  split at h
  · rename_i id rest hsplit
    split at h
    · cases h
    · rename_i hname
      split at h
      · split at h
        · cases h
        · dsimp only at h
          split at h
          · cases h
          · rename_i hnew
            obtain ⟨columns, hcolumns, hopen⟩ := bind_eq_ok.mp h
            cases hopen
            refine ⟨id, rest, columns, hsplit, by simpa using hname, by simpa using hnew, ?_, rfl⟩
            intro c hc
            obtain ⟨token, -, htoken⟩ := mapM_ok_mem (map_error_eq_ok.mp hcolumns) hc
            exact read_column_named htoken
      · cases h
  · cases h

theorem add_row_ok {text : List Char} (h : d.addRow line text = .ok d') :
    ∃ p rows, d.current = some p ∧
      d' = { d with current := some { p with table := { p.table with rows } } } := by
  rw [Draft.addRow] at h
  split at h
  · rename_i p hcurrent
    obtain ⟨fields, -, hrow⟩ := bind_eq_ok.mp h
    dsimp only at hrow
    split at hrow
    · cases hrow
    · obtain ⟨row, -, hadd⟩ := bind_eq_ok.mp hrow
      cases hadd
      exact ⟨p, _, hcurrent, rfl⟩
  · cases h

end Effects
end DocForms.Compact
