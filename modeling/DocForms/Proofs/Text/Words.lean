import DocForms.Document.Name
import DocForms.Proofs.Text.Quoted

namespace DocForms.Text

def isWordChar (c : Char) : Bool :=
  isLetter c || isDigit c || c == '_' || c == '.' || c == '-' || c == '+'

theorem char_le_iff {a b : Char} : a ≤ b ↔ a.toNat ≤ b.toNat := Iff.rfl

theorem word_char_range {c : Char} (h : isWordChar c = true) : 43 ≤ c.toNat ∧ c.toNat ≤ 122 := by
  simp only [isWordChar, isLetter, isDigit, Bool.or_eq_true, Bool.and_eq_true, beq_iff_eq,
    decide_eq_true_eq, char_le_iff, Char.reduceToNat] at h
  rcases h with ((((h | h) | rfl) | rfl) | rfl) | rfl
  · omega
  · omega
  all_goals decide

theorem word_char_not_blank {c : Char} (h : isWordChar c = true) : isBlank c = false := by
  have := word_char_range h
  simp only [isBlank, Bool.or_eq_false_iff, Bool.and_eq_false_iff, decide_eq_false_iff_not,
    beq_eq_false_iff_ne]
  omega

theorem word_char_not_control {c : Char} (h : isWordChar c = true) : isControl c = false := by
  have := word_char_range h
  simp only [isControl, Bool.or_eq_false_iff, Bool.and_eq_false_iff, decide_eq_false_iff_not]
  omega

/-- A non-empty text of such characters. -/
def Word (s : List Char) : Prop :=
  s ≠ [] ∧ ∀ c ∈ s, isWordChar c = true

theorem Word.not_mem {s : List Char} (h : Word s) {c : Char} (hc : isWordChar c = false) :
    c ∉ s := by
  intro hm
  rw [h.2 c hm] at hc
  cases hc

theorem Word.no_control {s : List Char} (h : Word s) : NoControl s :=
  fun c hc => word_char_not_control (h.2 c hc)

theorem Word.one_field {s : List Char} (h : Word s) {sep : Char} (hs : isWordChar sep = false) :
    OneField sep .plain s :=
  one_field_bare (h.not_mem (by decide)) (h.not_mem hs)

theorem Word.cons {c : Char} {s : List Char} (hc : isWordChar c = true) (hs : Word s) :
    Word (c :: s) := by
  refine ⟨by simp, ?_⟩
  intro d hd
  rcases List.mem_cons.mp hd with rfl | h
  · exact hc
  · exact hs.2 d h

/-- A text that shows at both ends, so that trimming leaves it as it is. -/
structure Bounded (s : List Char) : Prop where
  first : ∃ c cs, s = c :: cs ∧ isBlank c = false
  last : ∃ cs c, s = cs ++ [c] ∧ isBlank c = false

theorem Bounded.ne_nil {s : List Char} (h : Bounded s) : s ≠ [] := by
  obtain ⟨c, cs, rfl, _⟩ := h.first
  simp

theorem Bounded.append {s t : List Char} (hs : Bounded s) (ht : Bounded t) (mid : List Char) :
    Bounded (s ++ mid ++ t) := by
  obtain ⟨c, cs, hc, hcb⟩ := hs.first
  obtain ⟨ds, d, hd, hdb⟩ := ht.last
  exact ⟨⟨c, cs ++ mid ++ t, by simp [hc], hcb⟩, ⟨s ++ mid ++ ds, d, by simp [hd], hdb⟩⟩

theorem Bounded.join {sep : List Char} {parts : List (List Char)} (hne : parts ≠ [])
    (h : ∀ s ∈ parts, Bounded s) : Bounded (join sep parts) :=
  join_induction hne h fun _ _ hs ht => hs.append ht sep

theorem Word.bounded {s : List Char} (h : Word s) : Bounded s := by
  obtain ⟨hne, hall⟩ := h
  refine ⟨?_, s.dropLast, s.getLast hne, ?_, ?_⟩
  · cases s with
    | nil => exact absurd rfl hne
    | cons c cs => exact ⟨c, cs, rfl, word_char_not_blank (hall c (by simp))⟩
  · exact (List.dropLast_concat_getLast hne).symm
  · exact word_char_not_blank (hall _ (List.getLast_mem hne))

theorem Bare.bounded {extra s : List Char} (h : Bare extra s) : Bounded s := by
  obtain ⟨c, cs, hc, hb, _⟩ := h.first
  exact ⟨⟨c, cs, hc, hb⟩, h.last⟩

theorem quote_bounded (s : List Char) : Bounded (quote s) :=
  ⟨⟨'"', _, rfl, by decide⟩, ⟨'"' :: s.flatMap escapedChar, '"', rfl, by decide⟩⟩

theorem trim_start_bounded {s : List Char} (h : Bounded s) : trimStart s = s := by
  obtain ⟨c, cs, rfl, hc⟩ := h.first
  simp [trimStart, hc]

/-- Dropping from the end what is not at the end. -/
theorem drop_end_while_append {p : Char → Bool} {c : Char} (hc : p c = false) (s t : List Char)
    (ht : ∀ d ∈ t, p d = true) : dropEndWhile p (s ++ [c] ++ t) = s ++ [c] := by
  have hrev : ∀ d ∈ t.reverse, p d = true := fun d hd => ht d (List.mem_reverse.mp hd)
  simp only [dropEndWhile, List.reverse_append, List.reverse_cons, List.reverse_nil,
    List.nil_append, List.singleton_append]
  rw [List.dropWhile_append_of_pos hrev, List.dropWhile_cons_of_neg (by simp [hc])]
  simp

theorem trim_end_bounded {s : List Char} (h : Bounded s) : trimEnd s = s := by
  obtain ⟨cs, c, hs, hc⟩ := h.last
  have := drop_end_while_append (p := isBlank) hc cs [] (by simp)
  rw [List.append_nil, ← hs] at this
  exact this

theorem trim_bounded {s : List Char} (h : Bounded s) : trim s = s := by
  rw [trim, trim_start_bounded h, trim_end_bounded h]

theorem trim_space {s : List Char} (h : Bounded s) : trim (' ' :: s) = s := by
  have hstart : trimStart (' ' :: s) = trimStart s := rfl
  rw [trim, hstart, ← trim, trim_bounded h]

/-- What trimming cuts off the end is blank. -/
theorem trim_end_append (s : List Char) :
    ∃ blanks, (∀ c ∈ blanks, isBlank c = true) ∧ trimEnd s ++ blanks = s := by
  refine ⟨(s.reverse.takeWhile isBlank).reverse, fun c hc => ?_, ?_⟩
  · exact List.all_eq_true.mp List.all_takeWhile c (List.mem_reverse.mp hc)
  · rw [trimEnd, dropEndWhile, ← List.reverse_append, List.takeWhile_append_dropWhile,
      List.reverse_reverse]

/-- A text that trimming makes no shorter is left as it is. -/
theorem trim_of_length {s : List Char} (h : s.length ≤ (trim s).length) : trim s = s := by
  obtain ⟨blanks, -, hend⟩ := trim_end_append (trimStart s)
  have hstart : s.takeWhile isBlank ++ trimStart s = s := List.takeWhile_append_dropWhile
  have hlength := congrArg List.length hstart
  have hrest := congrArg List.length hend
  rw [List.length_append] at hlength hrest
  rw [trim] at h ⊢
  have hfirst : s.takeWhile isBlank = [] := List.length_eq_zero_iff.mp (by omega)
  have hlast : blanks = [] := List.length_eq_zero_iff.mp (by omega)
  rw [hlast, List.append_nil] at hend
  rw [hfirst, List.nil_append] at hstart
  rw [hend, hstart]

theorem drop_while_head {p : Char → Bool} {s cs : List Char} {c : Char}
    (h : s.dropWhile p = c :: cs) : p c = false := by
  have hhead := List.head?_dropWhile_not p s
  rw [h] at hhead
  simpa using hhead

/-- What trimming leaves shows at both ends. -/
theorem bounded_trim {s : List Char} (h : trim s ≠ []) : Bounded (trim s) := by
  obtain ⟨blanks, -, hend⟩ := trim_end_append (trimStart s)
  constructor
  case first =>
    obtain ⟨c, cs, hc⟩ := List.exists_cons_of_ne_nil h
    rw [trim] at hc
    rw [hc] at hend
    exact ⟨c, cs, hc, drop_while_head hend.symm⟩
  case last =>
    cases hrest : (trimStart s).reverse.dropWhile isBlank with
    | nil =>
      rw [trim, trimEnd, dropEndWhile, hrest] at h
      exact absurd rfl h
    | cons c cs =>
      refine ⟨cs.reverse, c, ?_, drop_while_head hrest⟩
      rw [trim, trimEnd, dropEndWhile, hrest, List.reverse_cons]

theorem not_blank_line {s : List Char} (h : Bounded s) : isBlankLine s = false := by
  obtain ⟨c, cs, rfl, hc⟩ := h.first
  simp [isBlankLine, hc]

end DocForms.Text

namespace DocForms
open Text

theorem letter_is_word {c : Char} (h : isLetter c = true) : isWordChar c = true := by
  simp [isWordChar, h]

theorem digit_is_word {c : Char} (h : isDigit c = true) : isWordChar c = true := by
  simp [isWordChar, h]

/-- A name is a word that does not begin like a number. -/
theorem name_is_word {s : List Char} (h : isNameText s = true) : Word s := by
  cases s with
  | nil => simp [isNameText] at h
  | cons c cs =>
    simp only [isNameText, isNameStart, isNameRest, Bool.and_eq_true, Bool.or_eq_true,
      beq_iff_eq, List.all_eq_true] at h
    refine ⟨by simp, ?_⟩
    intro d hd
    rcases List.mem_cons.mp hd with rfl | hd
    · rcases h.1 with h | rfl
      · exact letter_is_word h
      · decide
    · rcases h.2 d hd with (((h | h) | rfl) | rfl) | rfl
      · exact letter_is_word h
      · exact digit_is_word h
      all_goals decide

end DocForms
