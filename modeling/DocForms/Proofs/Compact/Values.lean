import DocForms.Compact.Reader
import DocForms.Proofs.Document.Inference
import DocForms.Proofs.Text.Pieces

namespace DocForms.Compact
open Text Number

/-- The string of a context field is quoted whenever it could be read as something else. -/
theorem read_context_string {seps : List Char} (s : String) :
    inferScalar (contextScalar seps (.string s)) = .ok (.string s) := by
  rw [contextScalar, infer_scalar_quote_if, String.ofList_toList]
  intro hneeded
  obtain ⟨hbare, hliteral⟩ := Bool.or_eq_false_iff.mp hneeded
  exact ⟨(bare_of_needs_quotes hbare).not_mem (.inr (.inl rfl)), hliteral⟩

theorem context_string_piece {seps : List Char} (s : String) :
    Piece ('|' :: seps) ['#', '*'] (contextScalar seps (.string s)) := by
  apply quote_if_piece
  · exact fun h => (Bool.or_eq_false_iff.mp h).1
  · simp
  · simp

theorem context_scalar_bare {v : Value} (h : v.IsBare) (seps : List Char) :
    contextScalar seps v = v.text := by
  cases v with
  | string s => cases h
  | _ => rfl

theorem context_scalar {v : Value} (h : v.LawfulScalar none) {seps : List Char}
    (hseps : ∀ c ∈ seps, isWordChar c = false) :
    Piece ('|' :: seps) ['#', '*'] (contextScalar seps v) ∧
      inferScalar (contextScalar seps v) = .ok v := by
  rcases h.cases with ⟨s, rfl⟩ | hv
  · exact ⟨context_string_piece s, read_context_string s⟩
  · rw [context_scalar_bare hv]
    refine ⟨hv.text_word.piece ?_ (by decide), hv.infer⟩
    intro c hc
    rcases List.mem_cons.mp hc with rfl | hc
    · decide
    · exact hseps c hc

/-- The items of an array: the commas between them are the only ones outside quotation marks. -/
theorem array_items {seps sigils : List Char} {texts : List (List Char)} (hsep : ',' ∈ seps)
    (h : ∀ s ∈ texts, Piece seps sigils s) : arrayItems (join [','] texts) = .ok texts := by
  by_cases hne : texts = []
  · rw [hne]
    rfl
  · have hjoin : join [','] texts ≠ [] := (Bounded.join hne fun s hs => (h s hs).bounded).ne_nil
    rw [arrayItems, List.isEmpty_eq_false_iff.mpr hjoin]
    exact Piece.split_join (by decide) hsep hne h

theorem star_piece {c : Char} {sigils : List Char} {texts : List (List Char)} (hc : c ≠ ',')
    (hstar : c ≠ '*') (h : ∀ s ∈ texts, Piece [c] sigils s) :
    Piece [c] ['#'] ('*' :: join [','] texts) := by
  have hfirst : ∀ x ∈ ('*' :: join [','] texts).head?, x ∉ ['#'] := by
    intro x hx
    cases hx
    decide
  by_cases hne : texts = []
  · subst hne
    refine ⟨⟨⟨'*', [], rfl, by decide⟩, [], '*', rfl, by decide⟩,
      .cons (by decide) (by simp [join_nil, NoControl]), ?_, hfirst⟩
    intro d hd
    rw [List.mem_singleton.mp hd, join_nil]
    exact .cons (by decide) (Ne.symm hstar) rfl
  · have hjoin : Piece [c] sigils (join [','] texts) :=
      .join (by decide) (by decide) (by simpa using Ne.symm hc) hne h
    obtain ⟨cs, x, hx, hb⟩ := hjoin.bounded.last
    refine ⟨⟨⟨'*', _, rfl, by decide⟩, '*' :: cs, x, by rw [hx]; rfl, hb⟩,
      hjoin.noControl.cons (by decide), ?_, hfirst⟩
    intro d hd
    rw [List.mem_singleton.mp hd]
    exact (hjoin.oneField c (by simp)).cons (by decide) (Ne.symm hstar)

/-- An array whose items are pieces and are read back one by one. -/
theorem array_text {ε : Type} {c : Char} {seps : List Char} {write : Value → List Char}
    {readItem : List Char → Except ε Value} {items : List Value} (hc : c ≠ ',' ∧ c ≠ '*')
    (hcomma : ',' ∈ seps) (hmem : c ∈ seps)
    (h : ∀ v ∈ items, Piece seps ['#', '*'] (write v) ∧ readItem (write v) = .ok v) :
    Piece [c] ['#'] (arrayText write items) ∧
      arrayItems (join [','] (items.map write)) = .ok (items.map write) ∧
      (items.map write).mapM readItem = .ok items := by
  have hpieces : ∀ s ∈ items.map write, Piece seps ['#', '*'] s := by
    intro s hs
    obtain ⟨v, hv, rfl⟩ := List.mem_map.mp hs
    exact (h v hv).1
  refine ⟨star_piece hc.1 hc.2 fun s hs => (hpieces s hs).mono ?_ fun c hc => hc,
    array_items hcomma hpieces, mapM_read fun v hv => (h v hv).2⟩
  simpa using hmem

theorem read_context_not_star {s : List Char} (h : ∀ c ∈ s.head?, c ∉ ['#', '*']) :
    readContextValue s = inferScalar s := by
  unfold readContextValue
  split
  · exact absurd (by simp) (h '*' rfl)
  · rfl

theorem context_text_scalar {v : Value} (h : v.isArray = false) :
    contextText v = contextScalar [';'] v := by
  cases v with
  | array items => cases h
  | _ => rfl

theorem context_array {items : List Value} (h : ∀ v ∈ items, v.LawfulScalar none) :
    Piece [';'] ['#'] (contextText (.array items)) ∧
      readContextValue (contextText (.array items)) = .ok (.array items) := by
  have hseps : ∀ c ∈ [';', ','], isWordChar c = false := by decide
  obtain ⟨hpiece, hitems, hread⟩ := array_text (c := ';') (by decide) (by decide) (by decide)
    fun v hv => context_scalar (h v hv) hseps
  refine ⟨hpiece, ?_⟩
  rw [contextText, arrayText, readContextValue, hitems, ok_bind, hread]
  rfl

/-- Every lawful value of the context reads back from its field. -/
theorem context_value {v : Value} (h : v.Lawful none) :
    Piece [';'] ['#'] (contextText v) ∧ readContextValue (contextText v) = .ok v := by
  cases hv : v.isArray with
  | true =>
    cases v with
    | array items => exact context_array h.2
    | _ => cases hv
  | false =>
    have hseps : ∀ c ∈ [';'], isWordChar c = false := by decide
    obtain ⟨hpiece, hread⟩ := context_scalar ((Value.lawful_scalar hv).mp h) hseps
    rw [context_text_scalar hv]
    exact ⟨hpiece.mono (by simp) (by simp), by rw [read_context_not_star hpiece.first, hread]⟩

theorem cell_word {t : ColumnType} {v : Value} (h : v.LawfulScalar (some t)) (hv : v.IsBare)
    (extra : List Char) :
    Word (cellScalar extra t v) ∧ readCellScalar t (cellScalar extra t v) = .ok v := by
  cases v with
  | string s => cases hv
  | array items => cases hv
  | bool b =>
    have ht : t = .bool := h t rfl
    subst ht
    cases b with
    | true =>
      have hword : Word ['+'] := ⟨by decide, by decide⟩
      exact ⟨hword, rfl⟩
    | false =>
      have hword : Word ['-'] := ⟨by decide, by decide⟩
      exact ⟨hword, rfl⟩
  | float x =>
    have ht : t = .float := h.2 t rfl
    subst ht
    have htext : cellScalar extra .float (.float x) = doubleText Value.floatStyle x := rfl
    have hword := double_text_word hv Value.floatStyle
    rw [htext]
    exact ⟨hword, hword.read_typed (by rw [read_double_text hv]; rfl)⟩
  | int n =>
    rcases h t rfl with rfl | ⟨rfl, hn⟩
    · have htext : cellScalar extra .int (.int n) = int64Text n := rfl
      have hword : Word (int64Text n) := int_text_word n.toInt
      rw [htext]
      exact ⟨hword, hword.read_typed (by rw [read_int64_text]; rfl)⟩
    · obtain ⟨s, hs, hword, hread⟩ := Base62.encode_some hn
      rw [cellScalar, if_pos rfl, hs]
      exact ⟨hword, hword.read_typed (by rw [Option.getD_some, hread]; rfl)⟩

theorem cell_scalar {t : ColumnType} {v : Value} (h : v.LawfulScalar (some t)) {extra : List Char}
    (hextra : ∀ c ∈ extra, isWordChar c = false) :
    Piece ('|' :: extra) ['#', '*'] (cellScalar extra t v) ∧
      readCellScalar t (cellScalar extra t v) = .ok v := by
  rcases h.cases with ⟨s, rfl⟩ | hv
  · have ht : t = .string := h.2 t rfl
    subst ht
    refine ⟨quote_if_piece (fun h => h) (by simp) (by simp), ?_⟩
    have hread : unquote (quoteIf (needsQuotes extra s.toList) s.toList) = .ok s.toList :=
      unquote_quote_if fun hn => (bare_of_needs_quotes hn).not_mem (.inr (.inl rfl))
    rw [cellScalar, readCellScalar, hread, map_ok, String.ofList_toList]
    rfl
  · obtain ⟨hword, hread⟩ := cell_word h hv extra
    refine ⟨hword.piece ?_ (by decide), hread⟩
    intro c hc
    rcases List.mem_cons.mp hc with rfl | hc
    · decide
    · exact hextra c hc

theorem read_cell_not_star {t : ColumnType} {s : List Char} (h : ∀ c ∈ s.head?, c ∉ ['#', '*']) :
    readCell t s = readCellScalar t s := by
  unfold readCell
  split
  · exact absurd (by simp) (h '*' rfl)
  · rfl

theorem cell_text_scalar {v : Value} (h : v.isArray = false) (t : ColumnType) :
    cellText t v = cellScalar [] t v := by
  cases v with
  | array items => cases h
  | _ => rfl

theorem cell_array {t : ColumnType} {items : List Value}
    (h : ∀ v ∈ items, v.LawfulScalar (some t)) :
    Piece ['|'] ['#'] (cellText t (.array items)) ∧
      readCell t (cellText t (.array items)) = .ok (.array items) := by
  have hextra : ∀ c ∈ [','], isWordChar c = false := by decide
  obtain ⟨hpiece, hitems, hread⟩ := array_text (c := '|') (by decide) (by decide) (by decide)
    fun v hv => cell_scalar (h v hv) hextra
  refine ⟨hpiece, ?_⟩
  rw [cellText, arrayText, readCell, hitems, quotingFault, map_error_ok, ok_bind, hread]
  rfl

/-- Every lawful value of a column reads back from its cell. -/
theorem cell_value {t : ColumnType} {v : Value} (h : v.Lawful (some t)) :
    Piece ['|'] ['#'] (cellText t v) ∧ readCell t (cellText t v) = .ok v := by
  cases hv : v.isArray with
  | true =>
    cases v with
    | array items => exact cell_array h.2
    | _ => cases hv
  | false =>
    have hextra : ∀ c ∈ [], isWordChar c = false := by decide
    obtain ⟨hpiece, hread⟩ := cell_scalar ((Value.lawful_scalar hv).mp h) hextra
    rw [cell_text_scalar hv]
    exact ⟨hpiece.mono (by simp) (by simp), by rw [read_cell_not_star hpiece.first, hread]⟩

end DocForms.Compact
