import DocForms.Proofs.Text.Lines
import Mathlib.Data.List.Forall2
import Mathlib.Data.List.TakeWhile

namespace DocForms.Text

theorem lines_feed (s : List Char) : lines ('\n' :: s) = [] :: lines s := by
  obtain ⟨p, ps, hs⟩ := List.exists_cons_of_ne_nil (split_on_ne_nil '\n' s)
  simp only [lines, splitOn, if_true, hs, List.getLast?_cons_cons, List.dropLast_cons_cons]
  split <;> rfl

theorem lines_cons {c : Char} (h : c ≠ '\n') (s : List Char) :
    lines (c :: s) = consFirst c (lines s) := by
  obtain ⟨p, ps, hs⟩ := List.exists_cons_of_ne_nil (split_on_ne_nil '\n' s)
  cases ps with
  | nil => cases p <;> simp [lines, splitOn, h, hs, consFirst]
  | cons q qs =>
    simp only [lines, splitOn, if_neg h, hs, consFirst, List.getLast?_cons_cons, List.dropLast_cons_cons]
    split <;> rfl

/-- A text with a carriage return before every line feed. -/
def withReturns (s : List Char) : List Char :=
  s.flatMap fun c => if c = '\n' then ['\r', '\n'] else [c]

theorem cons_first_related {R : List Char → List Char → Prop} {c : Char} (hsame : R [c] [c])
    (hcons : ∀ l m, R l m → R (c :: l) (c :: m)) {ls ms : List (List Char)}
    (h : List.Forall₂ R ls ms) : List.Forall₂ R (consFirst c ls) (consFirst c ms) := by
  cases h with
  | nil => exact .cons hsame .nil
  | cons hl hrest => exact .cons (hcons _ _ hl) hrest

/-- A line, or the same line with a carriage return at its end. -/
def Returned (l m : List Char) : Prop :=
  m = l ∨ m = l ++ ['\r']

theorem lines_with_returns (s : List Char) :
    List.Forall₂ Returned (lines s) (lines (withReturns s)) := by
  induction s with
  | nil => exact .nil
  | cons c cs ih =>
    by_cases hc : c = '\n'
    · subst hc
      have hreturn : withReturns ('\n' :: cs) = '\r' :: '\n' :: withReturns cs := rfl
      rw [hreturn, lines_feed, lines_cons (by decide), lines_feed]
      exact .cons (.inr rfl) ih
    · have hkept : withReturns (c :: cs) = c :: withReturns cs := by
        simp [withReturns, hc]
      rw [hkept, lines_cons hc, lines_cons hc]
      refine cons_first_related (.inl rfl) (fun l m h => ?_) ih
      rcases h with rfl | rfl
      · exact .inl rfl
      · exact .inr rfl

/-- A line with blanks at its end. -/
def Trailed (l m : List Char) : Prop :=
  ∃ blanks, (∀ c ∈ blanks, isBlank c = true) ∧ m = l ++ blanks

theorem Returned.trailed {l m : List Char} (h : Returned l m) : Trailed l m := by
  rcases h with rfl | rfl
  · exact ⟨[], nofun, (List.append_nil _).symm⟩
  · exact ⟨['\r'], by decide, rfl⟩

theorem drop_end_while_all {p : Char → Bool} (s : List Char) {t : List Char}
    (h : ∀ c ∈ t, p c = true) : dropEndWhile p (s ++ t) = dropEndWhile p s := by
  have hrev : ∀ c ∈ t.reverse, p c = true := fun c hc => h c (List.mem_reverse.mp hc)
  rw [dropEndWhile, List.reverse_append, List.dropWhile_append_of_pos hrev, dropEndWhile]

theorem Trailed.trim_end {l m : List Char} (h : Trailed l m) : trimEnd m = trimEnd l := by
  obtain ⟨blanks, hblanks, rfl⟩ := h
  exact drop_end_while_all l hblanks

theorem Returned.drop_returns {l m : List Char} (h : Returned l m) :
    dropEndWhile (· == '\r') m = dropEndWhile (· == '\r') l := by
  rcases h with rfl | rfl
  · rfl
  · exact drop_end_while_all l (by decide)

/-- Nothing is cut off before the last character that shows. -/
theorem trim_end_append_cons {c : Char} (hc : isBlank c = false) (s cs : List Char) :
    trimEnd (s ++ c :: cs) = s ++ trimEnd (c :: cs) := by
  have hstop : (c :: cs).reverse.dropWhile isBlank ≠ [] := by
    intro hnil
    rw [List.dropWhile_eq_nil_iff.mp hnil c (by simp)] at hc
    cases hc
  rw [trimEnd, dropEndWhile, List.reverse_append, List.dropWhile_append, if_neg (by simpa using hstop),
    List.reverse_append, List.reverse_reverse, trimEnd, dropEndWhile]

theorem trim_end_cons {c : Char} (hc : isBlank c = false) (cs : List Char) :
    ∃ rest, trimEnd (c :: cs) = c :: rest := by
  obtain ⟨blanks, hblanks, hend⟩ := trim_end_append (c :: cs)
  cases htrim : trimEnd (c :: cs) with
  | nil =>
    rw [htrim, List.nil_append] at hend
    rw [hblanks c (by simp [hend])] at hc
    cases hc
  | cons d rest =>
    rw [htrim] at hend
    exact ⟨rest, congrArg (· :: rest) (List.cons.inj hend).1⟩

/-- Where lines differ in nothing that is looked at, so do the numbered lines. -/
theorem numbered_alike {α : Type} {R : List Char → List Char → Prop} {f : List Char → α}
    (hf : ∀ l m, R l m → f m = f l) {ls ms : List (List Char)} (h : List.Forall₂ R ls ms) :
    (numbered ms).map (fun l => (l.1, f l.2)) = (numbered ls).map fun l => (l.1, f l.2) := by
  rw [numbered_eq, numbered_eq]
  generalize 1 = n
  induction h generalizing n with
  | nil => rfl
  | cons hl _ ih =>
    rw [numbered_from_cons, numbered_from_cons, List.map_cons, List.map_cons, hf _ _ hl, ih]

/-- A numbered line of a text at its place in another. -/
def moveLine (place : Nat → Nat) (l : Nat × List Char) : Nat × List Char :=
  (place l.1, l.2)

/-- Lines to be put into a text: some before each of its lines, counted from one, and some at its end. -/
structure Insertion where
  before : Nat → List (List Char)
  after : List (List Char)

namespace Insertion

/-- The lines with those of the insertion among them; the first of them is the `n`-th of the text. -/
def into (i : Insertion) (n : Nat) : List (List Char) → List (List Char)
  | [] => i.after
  | l :: ls => i.before n ++ l :: i.into (n + 1) ls

/-- The number that the `n`-th line of the text has afterwards: higher by the lines put in before it. -/
def place (i : Insertion) (n : Nat) : Nat :=
  n + ((List.range' 1 n).flatMap i.before).length

/-- All lines that are put in are of one kind. -/
def Of (i : Insertion) (P : List Char → Prop) : Prop :=
  (∀ n, ∀ l ∈ i.before n, P l) ∧ ∀ l ∈ i.after, P l

theorem place_zero (i : Insertion) : i.place 0 = 0 := rfl

theorem place_succ (i : Insertion) (n : Nat) :
    i.place (n + 1) = i.place n + 1 + (i.before (n + 1)).length := by
  rw [place, place, List.range'_1_concat, List.flatMap_append, List.flatMap_singleton,
    List.length_append, Nat.add_comm 1 n]
  omega

/-- A text with lines put in. -/
def Into (i : Insertion) (text text' : String) : Prop :=
  lines text'.toList = i.into 1 (lines text.toList)

/-- Lines of a kind that is passed over, and no others, are dropped again by a filter. -/
theorem filter_inserted {P : List Char → Prop} {keep : List Char → Bool}
    (hkeep : ∀ l, P l → keep l = false) {ls : List (List Char)} (h : ∀ l ∈ ls, P l) (n : Nat) :
    (numberedFrom n ls).filter (fun l => keep l.2) = [] := by
  refine List.filter_eq_nil_iff.mpr fun l hl => ?_
  have hmem : l.2 ∈ (numberedFrom n ls).map Prod.snd := List.mem_map_of_mem hl
  rw [numbered_from_texts] at hmem
  simp [hkeep l.2 (h l.2 hmem)]

/-- Where inserted lines are passed over, the lines of the text are left, each at its place. -/
theorem filter_into {i : Insertion} {P : List Char → Prop} {keep : List Char → Bool} (hi : i.Of P)
    (hkeep : ∀ l, P l → keep l = false) {m n : Nat} (hm : m + (i.before n).length = i.place n)
    (ls : List (List Char)) : (numberedFrom m (i.into n ls)).filter (fun l => keep l.2) =
      ((numberedFrom n ls).filter fun l => keep l.2).map (moveLine i.place) := by
  -- What is put in before the line at hand ends right before its place.
  induction ls generalizing m n with
  | nil => exact filter_inserted hkeep hi.2 m
  | cons l ls ih =>
    have hnext : m + (i.before n).length + 1 + (i.before (n + 1)).length = i.place (n + 1) := by
      rw [hm, place_succ]
    rw [into, numbered_from_append, List.filter_append, filter_inserted hkeep (hi.1 n),
      List.nil_append, numbered_from_cons, numbered_from_cons, hm, List.filter_cons,
      List.filter_cons, ← hm, ih hnext, hm]
    by_cases hl : keep l = true <;> simp [hl, moveLine]

theorem filter_text {i : Insertion} {text text' : String} {P : List Char → Prop}
    (h : i.Into text text') (hi : i.Of P) (keep : List Char → Bool)
    (hkeep : ∀ l, P l → keep l = false) :
    (numbered (lines text'.toList)).filter (fun l => keep l.2) =
      ((numbered (lines text.toList)).filter fun l => keep l.2).map (moveLine i.place) := by
  rw [h, numbered_eq, numbered_eq]
  refine filter_into hi hkeep ?_ _
  rw [place_succ, place_zero]

end Insertion
end DocForms.Text
