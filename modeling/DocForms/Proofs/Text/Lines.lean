import DocForms.Proofs.Text.Words

namespace DocForms.Text

theorem split_on_lines {ls : List (List Char)} (h : ∀ l ∈ ls, '\n' ∉ l) :
    splitOn '\n' (ls.flatMap fun l => l ++ ['\n']) = ls ++ [[]] := by
  induction ls with
  | nil => rfl
  | cons l rest ih =>
    rw [List.flatMap_cons, List.append_assoc, List.singleton_append,
      split_on_append (h l (by simp)), ih (fun m hm => h m (List.mem_cons_of_mem _ hm))]
    rfl

theorem NoControl.not_mem {s : List Char} (h : NoControl s) {c : Char}
    (hc : isControl c = true) : c ∉ s := by
  intro hm
  rw [h c hm] at hc
  cases hc

/-- Every line ends with a line feed, and no line holds one. -/
theorem lines_text {ls : List (List Char)} (h : ∀ l ∈ ls, NoControl l) :
    lines (ls.flatMap fun l => l ++ ['\n']) = ls := by
  have hs := split_on_lines fun l hl => (h l hl).not_mem (by decide)
  simp [lines, hs]

theorem drop_returns {s : List Char} (h : NoControl s) : dropEndWhile (· == '\r') s = s := by
  rcases List.eq_nil_or_concat s with rfl | ⟨cs, c, hs⟩
  · rfl
  · have hc : (c == '\r') = false := by
      have := h.not_mem (c := '\r') (by decide)
      rw [hs] at this
      simp only [List.concat_eq_append, List.mem_append, List.mem_singleton, not_or] at this
      simpa using Ne.symm this.2
    have := drop_end_while_append (p := (· == '\r')) hc cs [] (by simp)
    rwa [List.append_nil, ← List.concat_eq_append, ← hs] at this

/-- Lines with their numbers, counted from `n`. -/
def numberedFrom (n : Nat) (ls : List (List Char)) : List (Nat × List Char) :=
  (List.range' n ls.length).zip ls

theorem numbered_eq (ls : List (List Char)) : numbered ls = numberedFrom 1 ls := rfl

theorem numbered_from_cons (n : Nat) (l : List Char) (ls : List (List Char)) :
    numberedFrom n (l :: ls) = (n, l) :: numberedFrom (n + 1) ls := by
  simp [numberedFrom, List.range'_succ]

theorem numbered_from_append (n : Nat) (ls ms : List (List Char)) :
    numberedFrom n (ls ++ ms) = numberedFrom n ls ++ numberedFrom (n + ls.length) ms := by
  induction ls generalizing n with
  | nil => rfl
  | cons l rest ih =>
    rw [List.cons_append, numbered_from_cons, numbered_from_cons, ih, List.cons_append,
      List.length_cons, Nat.add_assoc, Nat.add_comm 1]

theorem numbered_from_texts (n : Nat) (ls : List (List Char)) :
    (numberedFrom n ls).map Prod.snd = ls :=
  List.map_snd_zip (by simp)

end DocForms.Text
