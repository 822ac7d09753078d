import DocForms.Proofs.Text.Quoted

namespace DocForms.Text

/-- A character put before the first field stands before the join. -/
theorem join_cons_first (sep : List Char) (c : Char) (fields : List (List Char)) :
    join sep (consFirst c fields) = c :: join sep fields := by
  cases fields with
  | nil => rfl
  | cons f rest =>
    cases rest with
    | nil => simp only [consFirst, join_single]
    | cons g rest => simp only [consFirst, join_cons_cons, List.cons_append]

/-- The fields of the rest of a line, from where a scan has come to: the first goes on from there, and the
others begin outside quotation marks. -/
structure FieldsFrom (sep : Char) (q : Quoting) (line field : List Char) (more : List (List Char)) :
    Prop where
  first : OneField sep q field
  others : ∀ f ∈ more, OneField sep .plain f
  joined : join [sep] (field :: more) = line

/-- A separator ends a first field with nothing in it. -/
theorem FieldsFrom.separate {sep : Char} {line field : List Char} {more : List (List Char)}
    (h : FieldsFrom sep .plain line field more) :
    FieldsFrom sep .plain (sep :: line) [] (field :: more) := by
  refine ⟨rfl, ?_, ?_⟩
  · intro f hf
    rcases List.mem_cons.mp hf with hfirst | hmore
    · rw [hfirst]
      exact h.first
    · exact h.others f hmore
  · rw [join_cons_cons, h.joined]
    rfl

/-- Any other character belongs to the first field. -/
theorem FieldsFrom.extend {sep c : Char} {q : Quoting} {line field : List Char}
    {more : List (List Char)} (hc : ¬(q = .plain ∧ c ≠ '"' ∧ c = sep))
    (h : FieldsFrom sep (q.next c) line field more) :
    FieldsFrom sep q (c :: line) (c :: field) more := by
  refine ⟨⟨hc, h.first⟩, h.others, ?_⟩
  have hjoin := join_cons_first [sep] c (field :: more)
  rwa [h.joined] at hjoin

/-- By induction on the line, wherever the scan stands: it need not begin outside quotation marks, as the
rest of a field does not. -/
theorem fields_of_split {sep : Char} {q : Quoting} {line : List Char} {fields : List (List Char)}
    (h : splitFrom sep q line = .ok fields) :
    ∃ field more, fields = field :: more ∧ FieldsFrom sep q line field more := by
  induction line generalizing q fields with
  | nil =>
    unfold splitFrom at h
    split at h
    · rename_i hplain
      cases h
      exact ⟨[], [], rfl, hplain, by simp, join_single _ _⟩
    · cases h
  | cons c cs ih =>
    unfold splitFrom at h
    split at h
    · rename_i hsep
      obtain ⟨hplain, -, hc⟩ := hsep
      obtain ⟨rest, hrest, hfields⟩ := map_eq_ok.mp h
      obtain ⟨field, more, heq, hfrom⟩ := ih hrest
      subst hplain hc heq hfields
      exact ⟨[], field :: more, rfl, hfrom.separate⟩
    · rename_i hother
      obtain ⟨rest, hrest, hfields⟩ := map_eq_ok.mp h
      obtain ⟨field, more, heq, hfrom⟩ := ih hrest
      subst heq hfields
      exact ⟨c :: field, more, rfl, hfrom.extend hother⟩

/-- The texts that splitting leaves whole. -/
theorem split_whole_iff {sep : Char} {s : List Char} :
    splitQuoted sep s = .ok [s] ↔ OneField sep .plain s := by
  constructor
  · intro h
    obtain ⟨field, more, heq, hfrom⟩ := fields_of_split h
    cases heq
    exact hfrom.first
  · exact OneField.split

/-- A quotation reads back as the text in it, stays on its line and is left whole by every split. A line is
split into fields exactly if they are left whole and the line is their join. -/
theorem quoting_and_splitting_compose :
    (∀ s, unquote (quote s) = .ok s ∧ NoControl (quote s) ∧
      ∀ sep, splitQuoted sep (quote s) = .ok [quote s]) ∧
    ∀ sep, sep ≠ '"' → ∀ line fields,
      splitQuoted sep line = .ok fields ↔
        fields ≠ [] ∧ (∀ f ∈ fields, splitQuoted sep f = .ok [f]) ∧ join [sep] fields = line := by
  constructor
  · intro s
    exact ⟨unquote_quote s, quote_no_control s, fun sep => (quote_one_field sep s).split⟩
  · intro sep hsep line fields
    constructor
    · intro h
      obtain ⟨field, more, heq, hfrom⟩ := fields_of_split h
      subst heq
      refine ⟨by simp, ?_, hfrom.joined⟩
      intro f hf
      rcases List.mem_cons.mp hf with hfirst | hmore
      · rw [hfirst]
        exact hfrom.first.split
      · exact (hfrom.others f hmore).split
    · intro h
      obtain ⟨hne, hwhole, hjoin⟩ := h
      rw [← hjoin]
      exact split_join hsep hne fun f hf => split_whole_iff.mp (hwhole f hf)

/-- Fields with a separator between quotation marks, with a mark and backslashes before the closing one, and
with nothing in them. -/
def markedFields : List (List Char) :=
  ["plain".toList, quote "a|b".toList, quote "\"\\\\".toList ++ quote "|".toList, []]

theorem quoting_and_splitting_compose_marks :
    '|' ≠ '"' ∧ (∀ f ∈ markedFields, splitQuoted '|' f = .ok [f]) ∧
      splitQuoted '|' (join ['|'] markedFields) = .ok markedFields := by
  have hsep : '|' ≠ '"' := by decide
  have hwhole : ∀ f ∈ markedFields, splitQuoted '|' f = .ok [f] := by
    simp only [markedFields, List.forall_mem_cons]
    exact ⟨rfl, rfl, rfl, rfl, by simp⟩
  refine ⟨hsep, hwhole, ?_⟩
  exact (quoting_and_splitting_compose.2 '|' hsep _ _).mpr ⟨by decide, hwhole, rfl⟩

end DocForms.Text
