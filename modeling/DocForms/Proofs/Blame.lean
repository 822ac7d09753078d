import DocForms.Proofs.Compact.Locations
import DocForms.Proofs.Sheet.Locations

namespace DocForms
open Text

/-- A text that is refused for a broken rule tells the line of what raises the first violation: the one
heading of a section, or the context. Of several context lines of compact text it is the first, which need
not be the one with the field; and in a sheet the name of a column is reported where a field would be. -/
theorem broken_rule_located (text : String) (n : Nat) (x : Violation) :
    (Compact.read text = .error (.parse n (.violation x)) → Compact.BlamesFirst text n x) ∧
      ∀ r, Sheet.read r text = .error (.parse n (.violation x)) → Sheet.BlamesFirst r text n x := by
  refine ⟨fun h => ?_, fun r h => Sheet.violation_blamed h⟩
  apply Compact.violation_blamed
  rw [Compact.read] at h
  cases hread : Compact.readWithReferences text with
  | ok result =>
    rw [hread] at h
    cases h
  | error failure =>
    rw [hread] at h
    cases h
    rfl

section Example

/-- A section without stored columns, below the context. -/
def unstoredText : String := "#c:k|1\n#s(a%#)\n"

/-- A column whose name starts with a digit, below the context. -/
def misnamedSheet : String := "[config]\na = 1\n\n[s]\n9x\nv\n"

theorem broken_rule_located_samples :
    (Compact.read unstoredText = .error (.parse 2 (.violation (.emptySchema "s"))) ∧
      Compact.BlamesFirst unstoredText 2 (.emptySchema "s")) ∧
    Sheet.read .standard misnamedSheet = .error (.parse 1 (.violation (.invalidName "9x"))) ∧
      Sheet.BlamesFirst .standard misnamedSheet 1 (.invalidName "9x") := by
  have hunstored : Compact.read unstoredText = .error (.parse 2 (.violation (.emptySchema "s"))) := by
    decide +kernel
  have hmisnamed : Sheet.read .standard misnamedSheet =
      .error (.parse 1 (.violation (.invalidName "9x"))) := by
    decide +kernel
  exact ⟨⟨hunstored, (broken_rule_located _ _ _).1 hunstored⟩, hmisnamed,
    (broken_rule_located _ _ _).2 _ hmisnamed⟩

/-- The section has a bad name as its only column, and yet it is not its heading that is reported. -/
theorem misnamed_column_elsewhere :
    Sheet.headingLines (numbered (lines misnamedSheet.toList)) =
      [(1, "config".toList), (4, "s".toList)] ∧
    ((Sheet.blocksOf (numbered (lines misnamedSheet.toList)) >>= fun blocks =>
      blocks.foldlM (Sheet.Draft.addBlock .standard) {}).map fun d => d.document.raised.head?) =
      .ok (some (.table "s", .invalidName "9x")) ∧
    Sheet.read .standard misnamedSheet = .error (.parse 1 (.violation (.invalidName "9x"))) := by
  decide +kernel

end Example
end DocForms
