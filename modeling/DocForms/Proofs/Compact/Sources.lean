import DocForms.Conversion
import DocForms.Proofs.Compact.RoundTrip
import DocForms.Proofs.Compact.Steps

namespace DocForms
open Text

/-- A failure tells the line that it is about. -/
def AtLine (f : Failure) : Prop :=
  f.line?.isSome = true

theorem misread_at_line {f : Failure} (h : Misread f) : AtLine f := by
  cases f with
  | parse => rfl
  | _ => cases h

namespace Compact

/-- Compact text that cannot be read is so at one of its lines. -/
theorem read_fails_at_line (text : String) : FailsOnly AtLine (readWithReferences text) := by
  rw [readWithReferences, readLines]
  refine FailsOnly.bind (.foldlM (fun d line => (add_line_fails d line).imp fun _ => misread_at_line) _ _)
    fun d => ?_
  rw [Draft.finish]
  refine FailsOnly.bind ?_ fun document => .ok _
  rw [Document.checkRead]
  split
  · exact .ok _
  · exact .error rfl

/-- References have been read under names only. -/
def Draft.Named (d : Draft) : Prop :=
  ∀ k ∈ d.references.keys, isName k = true

theorem add_context_references {line : Nat} {d d' : Draft} {fields : List Char}
    (h : d.addContext line fields = .ok d') : d'.references = d.references := by
  obtain ⟨entries, -, hfold⟩ := add_context_ok h
  refine foldlM_keeps (P := fun e => e.references = d.references) (fun e entry e' he hentry => ?_) rfl hfold
  obtain ⟨key, raw, v, -, -, -, rfl⟩ := add_context_entry_ok hentry
  exact he

theorem add_line_named {d d' : Draft} {line : Nat × List Char} (hd : d.Named)
    (h : d.addLine line = .ok d') : d'.Named := by
  rw [add_line_eq] at h
  split at h
  · cases h
    exact hd
  · rw [Draft.Named, add_context_references h]
    exact hd
  · obtain ⟨key, target, hname, rfl⟩ := add_reference_ok h
    intro k hk
    rcases Fields.mem_insert_keys hk with hk | rfl
    · exact hd k hk
    · simpa [isName] using hname
  · obtain ⟨id, rest, columns, -, -, -, -, rfl⟩ := open_section_ok h
    exact hd
  · obtain ⟨p, rows, -, rfl⟩ := add_row_ok h
    exact hd

/-- Whatever can be read can be written: the document is valid, and its references have names. -/
theorem lawful_of_read {text : String} {d : Document} {refs : References}
    (h : readWithReferences text = .ok (d, refs)) :
    d.isValid = true ∧ ∀ k ∈ refs.keys, isName k = true := by
  rw [readWithReferences, readLines] at h
  obtain ⟨e, hfold, hfinish⟩ := bind_eq_ok.mp h
  have hstart : Draft.Named {} := by
    rintro k ⟨⟩
  have hnamed := foldlM_keeps (P := Draft.Named) (fun _ _ _ => add_line_named) hstart hfold
  rw [Draft.finish, Document.checkRead] at hfinish
  split at hfinish
  · rename_i hvalid
    cases hfinish
    exact ⟨by simpa [Document.isValid] using hvalid, hnamed⟩
  · cases hfinish

end Compact

theorem source_text_fails_at_line (bytes : ByteArray) : FailsOnly AtLine (sourceText bytes) :=
  .map_error _ fun _ => rfl

end DocForms
