import DocForms.Text.Fields
import DocForms.Proofs.Outcomes

namespace DocForms.Text

/-- A text that a scan takes for one field: no separator stands outside quotation marks, and the scan
ends outside them. -/
def OneField (sep : Char) : Quoting → List Char → Prop
  | q, [] => q = .plain
  | q, c :: cs => ¬(q = .plain ∧ c ≠ '"' ∧ c = sep) ∧ OneField sep (q.next c) cs

theorem next_plain {c : Char} (hc : c ≠ '"') : Quoting.plain.next c = .plain := by
  simp [Quoting.next, hc]

theorem next_quoted {c : Char} (hq : c ≠ '"') (hb : c ≠ '\\') :
    Quoting.quoted.next c = .quoted := by
  simp [Quoting.next, hq, hb]

theorem one_field_bare {sep : Char} {s : List Char} (hq : '"' ∉ s) (hs : sep ∉ s) :
    OneField sep .plain s := by
  induction s with
  | nil => rfl
  | cons c cs ih =>
    simp only [List.mem_cons, not_or] at hq hs
    refine ⟨fun h => hs.1 h.2.2.symm, ?_⟩
    rw [next_plain (Ne.symm hq.1)]
    exact ih hq.2 hs.2

theorem OneField.append {sep : Char} {q : Quoting} {s t : List Char}
    (hs : OneField sep q s) (ht : OneField sep .plain t) : OneField sep q (s ++ t) := by
  induction s generalizing q with
  | nil =>
    cases hs
    exact ht
  | cons c cs ih => exact ⟨hs.1, ih hs.2⟩

theorem OneField.cons {sep c : Char} {s : List Char} (hq : c ≠ '"') (hc : c ≠ sep)
    (hs : OneField sep .plain s) : OneField sep .plain (c :: s) := by
  refine ⟨fun h => hc h.2.2, ?_⟩
  rwa [next_plain hq]

theorem OneField.split {sep : Char} {q : Quoting} {s : List Char} (h : OneField sep q s) :
    splitFrom sep q s = .ok [s] := by
  induction s generalizing q with
  | nil =>
    cases h
    rfl
  | cons c cs ih =>
    rw [splitFrom, if_neg h.1, ih h.2, map_ok]
    rfl

/-- A separator after a field ends it. -/
theorem OneField.split_append {sep : Char} {q : Quoting} {s : List Char} (hsep : sep ≠ '"')
    (h : OneField sep q s) (rest : List Char) :
    splitFrom sep q (s ++ sep :: rest) = (splitFrom sep .plain rest).map (s :: ·) := by
  induction s generalizing q with
  | nil =>
    cases h
    rw [List.nil_append, splitFrom, if_pos ⟨rfl, hsep, rfl⟩]
  | cons c cs ih =>
    rw [List.cons_append, splitFrom, if_neg h.1, ih h.2, map_map]
    rfl

theorem join_nil (sep : List Char) : join sep [] = [] := rfl

theorem join_single (sep s : List Char) : join sep [s] = s := by
  simp [join, List.intersperse]

theorem join_cons_cons (sep s t : List Char) (rest : List (List Char)) :
    join sep (s :: t :: rest) = s ++ sep ++ join sep (t :: rest) := by
  simp [join, List.intersperse]

/-- A space after each comma belongs to the field that follows. -/
theorem join_comma_space {entries : List (List Char)} (hne : entries ≠ []) :
    ' ' :: join [',', ' '] entries = join [','] (entries.map (' ' :: ·)) := by
  induction entries with
  | nil => exact absurd rfl hne
  | cons e rest ih =>
    cases rest with
    | nil => rw [List.map_singleton, join_single, join_single]
    | cons f rest =>
      have hrest := ih (by simp)
      rw [join_cons_cons, List.map_cons, List.map_cons, join_cons_cons,
        ← List.map_cons (f := (' ' :: ·)),
        ← hrest]
      simp

/-- What holds of parts and of a separator put before a part holds of the join. -/
theorem join_induction {P : List Char → Prop} {sep : List Char} {parts : List (List Char)}
    (hne : parts ≠ []) (hpart : ∀ s ∈ parts, P s)
    (hjoin : ∀ s t, P s → P t → P (s ++ sep ++ t)) : P (join sep parts) := by
  induction parts with
  | nil => exact absurd rfl hne
  | cons s rest ih =>
    cases rest with
    | nil =>
      rw [join_single]
      exact hpart s (by simp)
    | cons t rest =>
      rw [join_cons_cons]
      apply hjoin
      · exact hpart s (by simp)
      · exact ih (by simp) (fun u hu => hpart u (List.mem_cons_of_mem _ hu))

/-- Fields joined with a separator are the fields of the join. -/
theorem split_join {sep : Char} (hsep : sep ≠ '"') {fields : List (List Char)} (hne : fields ≠ [])
    (h : ∀ f ∈ fields, OneField sep .plain f) : splitQuoted sep (join [sep] fields) = .ok fields := by
  induction fields with
  | nil => exact absurd rfl hne
  | cons f rest ih =>
    have hf := h f (by simp)
    cases rest with
    | nil =>
      rw [join_single]
      exact hf.split
    | cons g rest =>
      have hrest := ih (by simp) (fun u hu => h u (List.mem_cons_of_mem _ hu))
      rw [join_cons_cons, List.append_assoc, List.singleton_append, splitQuoted,
        hf.split_append hsep]
      rw [splitQuoted] at hrest
      rw [hrest, map_ok]

/-- Fields of one separator stay one field of another when they are joined. -/
theorem OneField.join {sep c : Char} (hq : c ≠ '"') (hc : c ≠ sep) {fields : List (List Char)}
    (h : ∀ f ∈ fields, OneField sep .plain f) : OneField sep .plain (join [c] fields) := by
  by_cases hne : fields = []
  · rw [hne, join_nil]
    rfl
  · apply join_induction hne h
    intro s t hs ht
    rw [List.append_assoc]
    exact hs.append (ht.cons hq hc)

theorem split_on_ne_nil (sep : Char) (s : List Char) : splitOn sep s ≠ [] := by
  cases s with
  | nil => exact List.cons_ne_nil _ _
  | cons c cs =>
    rw [splitOn]
    split
    · exact List.cons_ne_nil _ _
    · cases splitOn sep cs <;> exact List.cons_ne_nil _ _

/-- Splitting at every separator, when the fields have none. -/
theorem split_on_append {sep : Char} {s : List Char} (hs : sep ∉ s) (rest : List Char) :
    splitOn sep (s ++ sep :: rest) = s :: splitOn sep rest := by
  induction s with
  | nil => rw [List.nil_append, splitOn, if_pos rfl]
  | cons c cs ih =>
    simp only [List.mem_cons, not_or] at hs
    rw [List.cons_append, splitOn, if_neg (Ne.symm hs.1), ih hs.2]
    rfl

theorem split_on_bare {sep : Char} {s : List Char} (hs : sep ∉ s) : splitOn sep s = [s] := by
  induction s with
  | nil => rfl
  | cons c cs ih =>
    simp only [List.mem_cons, not_or] at hs
    rw [splitOn, if_neg (Ne.symm hs.1), ih hs.2]
    rfl

theorem split_on_join {sep : Char} {fields : List (List Char)} (hne : fields ≠ [])
    (h : ∀ f ∈ fields, sep ∉ f) : splitOn sep (join [sep] fields) = fields := by
  induction fields with
  | nil => exact absurd rfl hne
  | cons f rest ih =>
    have hf := h f (by simp)
    cases rest with
    | nil =>
      rw [join_single]
      exact split_on_bare hf
    | cons g rest =>
      rw [join_cons_cons, List.append_assoc, List.singleton_append, split_on_append hf,
        ih (by simp) (fun u hu => h u (List.mem_cons_of_mem _ hu))]

theorem split_once_append {sep : Char} {s : List Char} (hs : sep ∉ s) (rest : List Char) :
    splitOnce sep (s ++ sep :: rest) = some (s, rest) := by
  induction s with
  | nil => rw [List.nil_append, splitOnce, if_pos rfl]
  | cons c cs ih =>
    simp only [List.mem_cons, not_or] at hs
    rw [List.cons_append, splitOnce, if_neg (Ne.symm hs.1), ih hs.2]
    rfl

theorem split_once_bare {sep : Char} {s : List Char} (hs : sep ∉ s) : splitOnce sep s = none := by
  induction s with
  | nil => rfl
  | cons c cs ih =>
    simp only [List.mem_cons, not_or] at hs
    rw [splitOnce, if_neg (Ne.symm hs.1), ih hs.2]
    rfl

/-- A character of a join stands in a part or in the separator. -/
theorem mem_join {c : Char} {sep : List Char} {parts : List (List Char)} (h : c ∈ join sep parts) :
    c ∈ sep ∨ ∃ s ∈ parts, c ∈ s := by
  induction parts with
  | nil => simp [join_nil] at h
  | cons s rest ih =>
    cases rest with
    | nil =>
      rw [join_single] at h
      exact .inr ⟨s, by simp, h⟩
    | cons t rest =>
      rw [join_cons_cons, List.mem_append, List.mem_append] at h
      rcases h with (hs | hsep) | hrest
      · exact .inr ⟨s, by simp, hs⟩
      · exact .inl hsep
      · rcases ih hrest with hsep | ⟨u, hu, hc⟩
        · exact .inl hsep
        · exact .inr ⟨u, List.mem_cons_of_mem _ hu, hc⟩

end DocForms.Text
