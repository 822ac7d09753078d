import DocForms.Proofs.Noise.Compact
import DocForms.Proofs.Noise.Sheet

namespace DocForms
open Text

/-- A text with carriage returns before its line feeds. -/
def returned (text : String) : String :=
  String.ofList (withReturns text.toList)

/-- Line noise does not change what is read, nor for which reason a text is refused. Compact text is refused
at the line that it would be refused at without the noise, and so are sheets, unless they break a rule of
documents and no heading is to blame. -/
theorem line_noise_ignored (text : String) :
    (Compact.readWithReferences (returned text) = Compact.readWithReferences text ∧
      ∀ (i : Insertion) (text' : String), i.Of (isBlankLine · = true) → i.Into text text' →
        Compact.readWithReferences text' =
          (Compact.readWithReferences text).mapError (Failure.moved i.place)) ∧
    ∀ r : Registry,
      Sheet.read r (returned text) = Sheet.read r text ∧
      (∀ text' : String, List.Forall₂ Trailed (lines text.toList) (lines text'.toList) →
        Sheet.read r text' = Sheet.read r text) ∧
      ∀ (i : Insertion) (text' : String), i.Of Sheet.CommentLine → i.Into text text' →
        Sheet.read r text' = (Sheet.read r text).mapError (Failure.moved i.place) ∨
          ∃ x, Sheet.read r text = .error (.parse 1 (.violation x)) ∧
            Sheet.read r text' = Sheet.read r text := by
  refine ⟨⟨Compact.read_with_returns text, fun i text' => Compact.read_among_blanks⟩, fun r => ?_⟩
  refine ⟨Sheet.read_trailed r ?_, fun text' => Sheet.read_trailed r, fun i text' => ?_⟩
  · rw [returned, String.toList_ofList]
    exact (lines_with_returns text.toList).imp fun _ _ => Returned.trailed
  · exact Sheet.read_among_comments r

section Example

/-- A row outside of all sections. -/
def strayRow : String := "#c:k|1\nx\n"

def strayRowSpaced : String := "#c:k|1\n \t\n\nx\n\n"

def blankLines : Insertion where
  before n := if n = 2 then [" \t".toList, []] else []
  after := [[]]

/-- Two records of one table. -/
def twoRecords : String := "[s]\na\nx\n\n\na\ny\n"

def twoRecordsTrailed : String := "[s] \na\nx\t\t\n\r\n \na\ny  \n"

def twoRecordsCommented : String := "# first\n[s]\na\nx\n\n  # between\n\na\ny\n"

def comments : Insertion where
  before n := if n = 1 then ["# first".toList] else if n = 5 then ["  # between".toList] else []
  after := []

theorem blank_lines_blank : blankLines.Of (isBlankLine · = true) := by
  refine ⟨fun n l hl => ?_, by decide⟩
  simp only [blankLines] at hl
  split at hl
  · revert l
    decide
  · cases hl

theorem comments_comment : comments.Of Sheet.CommentLine := by
  have hcomment : ∀ l ∈ ["# first".toList, "  # between".toList], Sheet.CommentLine l := by
    unfold Sheet.CommentLine
    decide
  refine ⟨fun n l hl => hcomment l ?_, nofun⟩
  simp only [comments] at hl
  split at hl
  · exact List.mem_cons.mpr (.inl (List.mem_singleton.mp hl))
  · split at hl
    · exact List.mem_cons_of_mem _ hl
    · cases hl

theorem line_noise_ignored_samples :
    (blankLines.Of (isBlankLine · = true) ∧ blankLines.Into strayRow strayRowSpaced ∧
      Compact.readWithReferences strayRow = .error (.parse 2 (.compact .rowOutsideSection)) ∧
      Compact.readWithReferences strayRowSpaced = .error (.parse 4 (.compact .rowOutsideSection))) ∧
    Sheet.read .standard twoRecords =
      .ok ⟨∅, [⟨"s", [⟨"a", .string⟩], [[.string "x"], [.string "y"]]⟩]⟩ ∧
    (List.Forall₂ Trailed (lines twoRecords.toList) (lines twoRecordsTrailed.toList) ∧
      Sheet.read .standard twoRecordsTrailed = Sheet.read .standard twoRecords) ∧
    comments.Of Sheet.CommentLine ∧ comments.Into twoRecords twoRecordsCommented ∧
      Sheet.read .standard twoRecordsCommented = Sheet.read .standard twoRecords := by
  have hstray : Compact.readWithReferences strayRow =
      .error (.parse 2 (.compact .rowOutsideSection)) := by decide +kernel
  have hspaced : blankLines.Into strayRow strayRowSpaced := by
    unfold Insertion.Into
    decide +kernel
  have hmoved := (line_noise_ignored strayRow).1.2 blankLines strayRowSpaced blank_lines_blank hspaced
  rw [hstray] at hmoved
  have hrecords : Sheet.read .standard twoRecords =
      .ok ⟨∅, [⟨"s", [⟨"a", .string⟩], [[.string "x"], [.string "y"]]⟩]⟩ := by decide +kernel
  have htrailed : List.Forall₂ Trailed (lines twoRecords.toList) (lines twoRecordsTrailed.toList) := by
    have hlines : lines twoRecords.toList =
        ["[s]", "a", "x", "", "", "a", "y"].map String.toList := by decide +kernel
    have hblanks : lines twoRecordsTrailed.toList =
        ["[s] ", "a", "x\t\t", "\r", " ", "a", "y  "].map String.toList := by decide +kernel
    rw [hlines, hblanks]
    exact .cons ⟨[' '], by decide, rfl⟩ <| .cons ⟨[], by decide, rfl⟩ <|
      .cons ⟨['\t', '\t'], by decide, rfl⟩ <| .cons ⟨['\r'], by decide, rfl⟩ <|
      .cons ⟨[' '], by decide, rfl⟩ <| .cons ⟨[], by decide, rfl⟩ <|
      .cons ⟨[' ', ' '], by decide, rfl⟩ .nil
  have hcommented : comments.Into twoRecords twoRecordsCommented := by
    unfold Insertion.Into
    decide +kernel
  have hsame := (line_noise_ignored twoRecords).2 .standard
  refine ⟨⟨blank_lines_blank, hspaced, hstray, hmoved⟩, hrecords, ⟨htrailed, hsame.2.1 _ htrailed⟩,
    comments_comment, hcommented, ?_⟩
  have hplaced := hsame.2.2 comments twoRecordsCommented comments_comment hcommented
  rw [hrecords] at hplaced ⊢
  exact hplaced.elim id fun ⟨_, herror, _⟩ => nomatch herror

end Example
end DocForms
