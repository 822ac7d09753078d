import DocForms.Document.Inference
import DocForms.Proofs.Document.Rules
import DocForms.Proofs.Number.DoubleText

namespace DocForms
open Text Number

theorem infer_bool (b : Bool) : inferBare (Value.boolText b) = .bool b := by
  cases b <;> rfl

theorem ne_of_reads {α : Type} {read : List Char → Option α} {s t : List Char} {a : α}
    (hs : read s = some a) (ht : read t = none) : s ≠ t := by
  rintro rfl
  rw [hs] at ht
  cases ht

theorem infer_int (n : Int64) : inferBare (int64Text n) = .int n := by
  have hread := read_int64_text n
  rw [inferBare, if_neg (ne_of_reads hread (by decide)), if_neg (ne_of_reads hread (by decide)),
    hread]

theorem infer_float {x : Double} (hx : x.isFinite = true) (style : DoubleStyle) :
    inferBare (doubleText style x) = .float x := by
  have hread := read_double_text hx style
  rw [inferBare, if_neg (ne_of_reads hread (by decide)), if_neg (ne_of_reads hread (by decide)),
    double_text_not_int hx, hread]
  simp [Option.filter, hx]

theorem infer_string {s : List Char} (h : looksLikeLiteral s = false) :
    inferBare s = .string (String.ofList s) := by
  simp only [looksLikeLiteral, Bool.or_eq_false_iff, beq_eq_false_iff_ne,
    Option.isSome_eq_false_iff, Option.isNone_iff_eq_none] at h
  obtain ⟨⟨⟨htrue, hfalse⟩, hint⟩, hdouble⟩ := h
  rw [inferBare, if_neg htrue, if_neg hfalse, hint, hdouble]
  rfl

theorem is_quoted_quote (s : List Char) : isQuoted (quote s) = true := by
  simp [isQuoted, quote]

theorem not_quoted {s : List Char} (h : '"' ∉ s) : isQuoted s = false := by
  cases s with
  | nil => rfl
  | cons c cs =>
    simp only [List.mem_cons, not_or] at h
    simpa [isQuoted] using Ne.symm h.1

theorem Text.Word.not_quoted {s : List Char} (h : Word s) : isQuoted s = false :=
  DocForms.not_quoted (h.not_mem (by decide))

/-- Where only strings may be quoted, a word is taken for the value that it is read as. -/
theorem Text.Word.read_typed {s : List Char} (h : Word s) {t : ColumnType} {v? : Option Value}
    {v : Value} (hv : v? = some v) :
    (if isQuoted s then .error (.notOfType t s)
      else v?.elim (.error (.notOfType t s)) .ok : Except ValueFault Value) = .ok v := by
  rw [h.not_quoted, hv]
  rfl

theorem infer_scalar_quote (s : List Char) :
    inferScalar (quote s) = .ok (.string (String.ofList s)) := by
  rw [inferScalar, is_quoted_quote, if_pos rfl, unquote_quote, map_ok]

theorem infer_scalar_bare {s : List Char} (h : isQuoted s = false) :
    inferScalar s = .ok (inferBare s) := by
  rw [inferScalar, h, if_neg (by decide)]

/-- A string is read as itself if it is quoted wherever it could be taken for something else. -/
theorem infer_scalar_quote_if {needed : Bool} {s : List Char}
    (h : needed = false → '"' ∉ s ∧ looksLikeLiteral s = false) :
    inferScalar (quoteIf needed s) = .ok (.string (String.ofList s)) := by
  cases needed with
  | true => rw [quoteIf, if_pos rfl, infer_scalar_quote]
  | false =>
    obtain ⟨hbare, hliteral⟩ := h rfl
    rw [quoteIf, if_neg (by decide), infer_scalar_bare (not_quoted hbare), infer_string hliteral]

theorem bool_text_word (b : Bool) : Word (Value.boolText b) := by
  cases b <;> exact ⟨by decide, by decide⟩

/-- Scalars whose text is always bare. -/
def Value.IsBare : Value → Prop
  | .bool _ | .int _ => True
  | .float x => x.isFinite = true
  | .string _ | .array _ => False

theorem Value.IsBare.text_word {v : Value} (h : v.IsBare) : Word v.text := by
  cases v with
  | bool b => exact bool_text_word b
  | int n => exact int_text_word n.toInt
  | float x => exact double_text_word h floatStyle
  | string s => cases h
  | array items => cases h

theorem Value.IsBare.infer {v : Value} (h : v.IsBare) : inferScalar v.text = .ok v := by
  rw [infer_scalar_bare h.text_word.not_quoted]
  cases v with
  | bool b => exact congrArg _ (infer_bool b)
  | int n => exact congrArg _ (infer_int n)
  | float x => exact congrArg _ (infer_float h floatStyle)
  | string s => cases h
  | array items => cases h

/-- A lawful scalar is a string or has bare text. -/
theorem Value.LawfulScalar.cases {type? : Option ColumnType} {v : Value}
    (h : v.LawfulScalar type?) : (∃ s, v = .string s) ∨ v.IsBare := by
  cases v with
  | bool b => exact .inr trivial
  | int n => exact .inr trivial
  | float x => exact .inr h.1
  | string s => exact .inl ⟨s, rfl⟩
  | array items => cases h

end DocForms
