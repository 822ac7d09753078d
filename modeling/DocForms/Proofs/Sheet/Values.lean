import DocForms.Sheet.Reader
import DocForms.Proofs.Document.Inference
import DocForms.Proofs.Text.Cells

namespace DocForms.Sheet
open Text Number

/-- The text of a scalar: no comma that counts, and no bracket to begin with. -/
structure ScalarText (s : List Char) : Prop where
  piece : Piece [','] ['#'] s
  oneCell : OneCell .plain s
  noBracket : s.head? ≠ some '['

/-- The text of a cell. It begins with a bracket only if it is the empty array. -/
structure CellText (s : List Char) : Prop where
  bounded : Bounded s
  noControl : NoControl s
  oneCell : OneCell .plain s
  first : ∀ c cs, s = c :: cs → c ≠ '#' ∧ (c = '[' → cs = [']'])

theorem ScalarText.value {s : List Char} (h : ScalarText s) : CellText s := by
  refine ⟨h.piece.bounded, h.piece.noControl, h.oneCell, ?_⟩
  rintro c cs rfl
  refine ⟨by simpa using h.piece.first c rfl, ?_⟩
  rintro rfl
  exact absurd rfl h.noBracket

/-- What begins like a scalar begins like a value. -/
theorem ScalarText.first_append {s : List Char} (h : ScalarText s) (t : List Char) :
    ∀ c cs, s ++ t = c :: cs → c ≠ '#' ∧ (c = '[' → cs = [']']) := by
  obtain ⟨x, xs, rfl, _⟩ := h.piece.bounded.first
  intro c cs hcs
  cases hcs
  refine ⟨by simpa using h.piece.first x rfl, ?_⟩
  rintro rfl
  exact absurd rfl h.noBracket

theorem no_gap {s : List Char} (h : holdsTwoSpaces s = false)
    (hlast : ∀ c ∈ s.getLast?, c ≠ ' ') : NoGap s := by
  match s with
  | [] => trivial
  | [c] => exact hlast c rfl
  | c :: d :: cs =>
    by_cases hc : c = ' ' ∧ d = ' '
    · obtain ⟨rfl, rfl⟩ := hc
      cases h
    · refine ⟨hc, no_gap ?_ ?_⟩
      · rw [holdsTwoSpaces] at h
        · exact h
        · rintro _ rfl hd
          cases hd
          exact hc ⟨rfl, rfl⟩
      · intro x hx
        exact hlast x (by simpa [List.getLast?_cons_cons] using hx)

theorem quote_scalar (s : List Char) : ScalarText (quote s) :=
  ⟨quote_piece (by decide) s, quote_one_cell s, by simp [quote]⟩

theorem bare_scalar {s : List Char} (h : needsSheetQuotes s = false) : ScalarText s := by
  simp only [needsSheetQuotes, Bool.or_eq_false_iff, beq_eq_false_iff_ne] at h
  obtain ⟨⟨hneeds, hbracket⟩, hspaces⟩ := h
  have hbare := bare_of_needs_quotes hneeds
  refine ⟨hbare.piece (by simp) (by simp), ?_, hbracket⟩
  apply (no_gap hspaces _).one_cell (hbare.not_mem (.inr (.inl rfl)))
  obtain ⟨cs, c, rfl, hc⟩ := hbare.last
  intro x hx
  rw [List.getLast?_concat] at hx
  cases hx
  rintro rfl
  rw [space_is_blank] at hc
  cases hc

theorem word_scalar {s : List Char} (h : Word s) : ScalarText s := by
  refine ⟨h.piece (by decide) (by decide), h.one_cell, ?_⟩
  intro hb
  exact h.not_mem (c := '[') (by decide) (List.mem_of_mem_head? hb)

theorem sheet_quotes_bare {s : List Char} (h : needsSheetQuotes s = false) : '"' ∉ s := by
  simp only [needsSheetQuotes, Bool.or_eq_false_iff] at h
  exact (bare_of_needs_quotes h.1.1).not_mem (.inr (.inl rfl))

theorem string_scalar (typed : Bool) (s : String) : ScalarText (scalarText typed (.string s)) := by
  rw [scalarText]
  cases hneeded : (!typed && looksLikeLiteral s.toList) || needsSheetQuotes s.toList with
  | true => exact quote_scalar s.toList
  | false => exact bare_scalar (Bool.or_eq_false_iff.mp hneeded).2

theorem read_string {type? : Option ColumnType} (ht : ∀ t ∈ type?, t = .string) (s : String) :
    readScalar type? (scalarText type?.isSome (.string s)) = .ok (.string s) := by
  cases type? with
  | none =>
    rw [scalarText, readScalar, infer_scalar_quote_if, String.ofList_toList]
    · rfl
    · intro hneeded
      obtain ⟨hliteral, hbare⟩ := Bool.or_eq_false_iff.mp hneeded
      exact ⟨sheet_quotes_bare hbare, by simpa using hliteral⟩
  | some t =>
    obtain rfl := ht t rfl
    have hread : unquote (scalarText true (.string s)) = .ok s.toList :=
      unquote_quote_if fun hneeded => sheet_quotes_bare (Bool.or_eq_false_iff.mp hneeded).2
    rw [Option.isSome_some, readScalar]
    simp only [hread, map_ok, String.ofList_toList]
    rfl

theorem scalar_text_bare {v : Value} (h : v.IsBare) (typed : Bool) : scalarText typed v = v.text := by
  cases v with
  | string s => cases h
  | _ => rfl

theorem read_typed_bare {t : ColumnType} {v : Value} (h : v.LawfulScalar (some t))
    (hv : v.IsBare) : readScalar (some t) v.text = .ok v := by
  have hword := hv.text_word
  cases v with
  | string s => cases hv
  | array items => cases hv
  | bool b =>
    have ht : t = .bool := h t rfl
    subst ht
    cases b <;> rfl
  | float x =>
    have ht : t = .float := h.2 t rfl
    subst ht
    have htext : Value.text (.float x) = doubleText Value.floatStyle x := rfl
    rw [htext] at hword ⊢
    exact hword.read_typed (by rw [read_double_text hv]; rfl)
  | int n =>
    have htext : Value.text (.int n) = int64Text n := rfl
    rw [htext] at hword ⊢
    rcases h t rfl with rfl | ⟨rfl, _⟩
    · exact hword.read_typed (by rw [read_int64_text]; rfl)
    · exact hword.read_typed (by rw [read_int64_text]; rfl)

/-- Every lawful scalar reads back from its text, in a column of its type or without a type. -/
theorem scalar_value {type? : Option ColumnType} {v : Value} (h : v.LawfulScalar type?) :
    ScalarText (scalarText type?.isSome v) ∧
      readScalar type? (scalarText type?.isSome v) = .ok v := by
  rcases h.cases with ⟨s, rfl⟩ | hv
  · exact ⟨string_scalar _ s, read_string h.2 s⟩
  · rw [scalar_text_bare hv]
    refine ⟨word_scalar hv.text_word, ?_⟩
    cases type? with
    | none =>
      rw [readScalar, hv.infer]
      rfl
    | some t => exact read_typed_bare h hv

theorem drop_empty_last_ne {items : List (List Char)} (h : ∀ s ∈ items, s ≠ []) :
    dropEmptyLast items = items := by
  rw [dropEmptyLast, if_neg]
  intro hlast
  exact h [] (List.mem_of_getLast? hlast) rfl

theorem read_items {type? : Option ColumnType} {items : List Value}
    (h : ∀ v ∈ items, v.LawfulScalar type?) :
    (items.map (scalarText type?.isSome)).mapM (readItem type?) = .ok items := by
  apply mapM_read
  intro v hv
  obtain ⟨htext, hread⟩ := scalar_value (h v hv)
  rw [readItem, List.isEmpty_eq_false_iff.mpr htext.piece.bounded.ne_nil]
  exact hread

theorem not_empty_array {s : List Char} (h : s.head? ≠ some '[') : s ≠ ['[', ']'] := by
  rintro rfl
  exact h rfl

theorem read_scalar_value {type? : Option ColumnType} {v : Value} (h : v.LawfulScalar type?) :
    readValue type? (scalarText type?.isSome v) = .ok v := by
  obtain ⟨htext, hread⟩ := scalar_value h
  have hsplit : splitQuoted ',' (scalarText type?.isSome v) = .ok [scalarText type?.isSome v] :=
    (htext.piece.oneField ',' (by simp)).split
  rw [readValue, if_neg (not_empty_array htext.noBracket), hsplit]
  simp only [map_error_ok, ok_bind, trim_bounded htext.piece.bounded, hread]

/-- An array of one item is told from the item by its comma. -/
theorem single_value {type? : Option ColumnType} {v : Value} (h : v.LawfulScalar type?) :
    CellText (scalarText type?.isSome v ++ [',']) ∧
      readValue type? (scalarText type?.isSome v ++ [',']) = .ok (.array [v]) := by
  obtain ⟨htext, _⟩ := scalar_value h
  have hsingle : ∀ w ∈ [v], w.LawfulScalar type? := by simpa using h
  have hitems := read_items hsingle
  rw [List.map_singleton] at hitems
  generalize scalarText type?.isSome v = s at htext hitems
  obtain ⟨c, cs, hc, hb⟩ := htext.piece.bounded.first
  constructor
  · refine ⟨⟨⟨c, cs ++ [','], by simp [hc], hb⟩, s, ',', rfl, by decide⟩,
      htext.piece.noControl.append (by unfold NoControl; decide), ?_, htext.first_append _⟩
    exact htext.oneCell.append ⟨by decide, rfl⟩
  · have hsplit : splitQuoted ',' (s ++ [',']) = .ok [s, []] := by
      rw [splitQuoted, (htext.piece.oneField ',' (by simp)).split_append (by decide)]
      rfl
    have hhead : (s ++ [',']).head? ≠ some '[' := by
      have := htext.noBracket
      rw [hc] at this ⊢
      exact this
    have hnil : trim [] = [] := rfl
    have htrim : [s, []].map trim = [s, []] := by
      rw [List.map_cons, List.map_singleton, trim_bounded htext.piece.bounded, hnil]
    have hdrop : dropEmptyLast [s, []] = [s] := rfl
    rw [readValue, if_neg (not_empty_array hhead), hsplit]
    simp only [map_error_ok, ok_bind, htrim, hdrop, hitems]
    rfl

theorem many_text {texts : List (List Char)} (hne : texts ≠ []) (h : ∀ s ∈ texts, ScalarText s) :
    CellText (join [',', ' '] texts) := by
  refine ⟨.join hne fun s hs => (h s hs).piece.bounded, ?_, ?_, ?_⟩
  · exact .join (by unfold NoControl; decide) fun s hs => (h s hs).piece.noControl
  · have hboth : Bounded (join [',', ' '] texts) ∧ OneCell .plain (join [',', ' '] texts) := by
      apply join_induction (P := fun s => Bounded s ∧ OneCell .plain s) hne
      · exact fun s hs => ⟨(h s hs).piece.bounded, (h s hs).oneCell⟩
      · rintro s t ⟨hs, hs'⟩ ⟨ht, ht'⟩
        exact ⟨hs.append ht _, hs'.comma ht' (Cell.first ⟨ht, ht'⟩)⟩
    exact hboth.2
  · obtain ⟨s, rest, rfl⟩ := List.exists_cons_of_ne_nil hne
    have hs := h s (by simp)
    cases rest with
    | nil =>
      rw [join_single]
      exact hs.value.first
    | cons t rest =>
      rw [join_cons_cons, List.append_assoc]
      exact hs.first_append _

theorem split_many {s t : List Char} {rest : List (List Char)}
    (h : ∀ x ∈ s :: t :: rest, ScalarText x) :
    splitQuoted ',' (join [',', ' '] (s :: t :: rest)) =
      .ok (s :: (' ' :: t) :: rest.map (' ' :: ·)) := by
  have hjoin : join [',', ' '] (s :: t :: rest) =
      join [','] (s :: (' ' :: t) :: rest.map (' ' :: ·)) := by
    have hrest := join_comma_space (List.cons_ne_nil t rest)
    rw [List.map_cons] at hrest
    rw [join_cons_cons, join_cons_cons, ← hrest]
    simp
  rw [hjoin, ← List.map_cons (f := (' ' :: ·))]
  apply split_join (by decide) (by simp)
  intro f hf
  rcases List.mem_cons.mp hf with rfl | hf
  · exact (h f (by simp)).piece.oneField ',' (by simp)
  · obtain ⟨x, hx, rfl⟩ := List.mem_map.mp hf
    exact ((h x (List.mem_cons_of_mem _ hx)).piece.oneField ',' (by simp)).cons (by decide)
      (by decide)

theorem many_value {type? : Option ColumnType} {v w : Value} {rest : List Value}
    (h : ∀ x ∈ v :: w :: rest, x.LawfulScalar type?) :
    CellText (join [',', ' '] ((v :: w :: rest).map (scalarText type?.isSome))) ∧
      readValue type? (join [',', ' '] ((v :: w :: rest).map (scalarText type?.isSome))) =
        .ok (.array (v :: w :: rest)) := by
  have htexts : ∀ s ∈ (v :: w :: rest).map (scalarText type?.isSome), ScalarText s := by
    intro s hs
    obtain ⟨x, hx, rfl⟩ := List.mem_map.mp hs
    exact (scalar_value (h x hx)).1
  have hitems := read_items h
  rw [List.map_cons, List.map_cons] at htexts hitems ⊢
  generalize scalarText type?.isSome v = s at htexts hitems
  generalize scalarText type?.isSome w = t at htexts hitems
  generalize rest.map (scalarText type?.isSome) = us at htexts hitems
  refine ⟨many_text (by simp) htexts, ?_⟩
  have htrim : (s :: (' ' :: t) :: us.map (' ' :: ·)).map trim = s :: t :: us := by
    rw [← List.map_cons (f := (' ' :: ·)), List.map_cons,
      trim_bounded (htexts s (by simp)).piece.bounded, List.map_map]
    congr 1
    calc (t :: us).map (trim ∘ (' ' :: ·)) = (t :: us).map id :=
          List.map_congr_left fun x hx =>
            trim_space (htexts x (List.mem_cons_of_mem _ hx)).piece.bounded
      _ = t :: us := List.map_id _
  have hdrop : dropEmptyLast (s :: t :: us) = s :: t :: us :=
    drop_empty_last_ne fun x hx => (htexts x hx).piece.bounded.ne_nil
  have hhead : (join [',', ' '] (s :: t :: us)).head? ≠ some '[' := by
    have hs := htexts s (by simp)
    obtain ⟨c, cs, rfl, _⟩ := hs.piece.bounded.first
    rw [join_cons_cons]
    exact hs.noBracket
  rw [readValue, if_neg (not_empty_array hhead), split_many htexts]
  simp only [map_error_ok, ok_bind, htrim, hdrop, hitems]
  rfl

theorem empty_value (type? : Option ColumnType) :
    CellText ['[', ']'] ∧ readValue type? ['[', ']'] = .ok (.array []) := by
  refine ⟨⟨⟨⟨'[', _, rfl, by decide⟩, ['['], ']', rfl, by decide⟩, by unfold NoControl; decide,
    no_gap_of_no_space (by decide) |>.one_cell (by decide), ?_⟩, rfl⟩
  intro c cs hcs
  cases hcs
  exact ⟨by decide, fun _ => rfl⟩

theorem value_text_scalar {v : Value} (h : v.isArray = false) (typed : Bool) :
    valueText typed v = scalarText typed v := by
  cases v with
  | array items => cases h
  | _ => rfl

/-- Every lawful value reads back from its text. -/
theorem value_text {type? : Option ColumnType} {v : Value} (h : v.Lawful type?) :
    CellText (valueText type?.isSome v) ∧
      readValue type? (valueText type?.isSome v) = .ok v := by
  cases hv : v.isArray with
  | false =>
    have hscalar := (Value.lawful_scalar hv).mp h
    rw [value_text_scalar hv]
    exact ⟨(scalar_value hscalar).1.value, read_scalar_value hscalar⟩
  | true =>
    match v with
    | .array [] => exact empty_value type?
    | .array [v] => exact single_value (h.2 v (by simp))
    | .array (v :: w :: rest) => exact many_value h.2

theorem cell_text {t : ColumnType} {v : Value} (h : v.Lawful (some t)) :
    CellText (valueText true v) ∧ readValue (some t) (valueText true v) = .ok v :=
  value_text h

theorem context_text {v : Value} (h : v.Lawful none) :
    CellText (valueText false v) ∧ readValue none (valueText false v) = .ok v :=
  value_text h

end DocForms.Sheet
