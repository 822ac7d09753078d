import DocForms.Proofs.Text.Words

namespace DocForms.Text

structure Piece (seps sigils s : List Char) : Prop where
  bounded : Bounded s
  noControl : NoControl s
  oneField : ∀ c ∈ seps, OneField c .plain s
  first : ∀ c ∈ s.head?, c ∉ sigils

/-- A piece among some separators and sigils is one among fewer. -/
theorem Piece.mono {seps sigils seps' sigils' s : List Char} (h : Piece seps sigils s)
    (hseps : ∀ c ∈ seps', c ∈ seps) (hsigils : ∀ c ∈ sigils', c ∈ sigils) :
    Piece seps' sigils' s :=
  ⟨h.bounded, h.noControl, fun c hc => h.oneField c (hseps c hc),
    fun c hc hm => h.first c hc (hsigils c hm)⟩

theorem quote_piece {seps sigils : List Char} (h : '"' ∉ sigils) (s : List Char) :
    Piece seps sigils (quote s) := by
  refine ⟨quote_bounded s, quote_no_control s, fun c _ => quote_one_field c s, ?_⟩
  intro c hc
  cases hc
  exact h

theorem Word.piece {seps sigils s : List Char} (h : Word s)
    (hseps : ∀ c ∈ seps, isWordChar c = false) (hsigils : ∀ c ∈ sigils, isWordChar c = false) :
    Piece seps sigils s := by
  refine ⟨h.bounded, h.no_control, fun c hc => h.one_field (hseps c hc), ?_⟩
  intro c hc hm
  have hword := h.2 c (List.mem_of_mem_head? hc)
  rw [hsigils c hm] at hword
  cases hword

theorem Bare.piece {extra seps sigils s : List Char} (h : Bare extra s)
    (hseps : ∀ c ∈ seps, c = '|' ∨ c ∈ extra) (hsigils : ∀ c ∈ sigils, c = '#' ∨ c = '*') :
    Piece seps sigils s := by
  refine ⟨h.bounded, fun c hc => (h.inner c hc).2.2.2.1, ?_, ?_⟩
  · intro c hc
    apply one_field_bare (h.not_mem (.inr (.inl rfl))) (h.not_mem _)
    rcases hseps c hc with hbar | hextra
    · exact .inl hbar
    · exact .inr (.inr hextra)
  · obtain ⟨c, cs, rfl, _, hhash, hstar⟩ := h.first
    intro d hd hm
    cases hd
    rcases hsigils c hm with rfl | rfl
    · exact hhash rfl
    · exact hstar rfl

/-- Text that is quoted where it must be. -/
theorem quote_if_piece {extra seps sigils : List Char} {needed : Bool} {s : List Char}
    (h : needed = false → needsQuotes extra s = false)
    (hseps : ∀ c ∈ seps, c = '|' ∨ c ∈ extra) (hsigils : ∀ c ∈ sigils, c = '#' ∨ c = '*') :
    Piece seps sigils (quoteIf needed s) := by
  cases needed with
  | true =>
    apply quote_piece
    intro hm
    rcases hsigils _ hm with h | h <;> cases h
  | false => exact (bare_of_needs_quotes (h rfl)).piece hseps hsigils

/-- A piece after a word and a mark. -/
theorem Piece.after_word {seps sigils word s : List Char} {c : Char} (hword : Word word)
    (hseps : ∀ x ∈ seps, isWordChar x = false) (hsigils : ∀ x ∈ sigils, isWordChar x = false)
    (hq : c ≠ '"') (hc : isControl c = false) (hsep : c ∉ seps) (h : Piece seps sigils s) :
    Piece seps sigils (word ++ c :: s) := by
  have hw : Piece seps sigils word := hword.piece hseps hsigils
  refine ⟨?_, hw.noControl.append (h.noControl.cons hc), ?_, ?_⟩
  · have := hw.bounded.append h.bounded [c]
    rwa [List.append_assoc] at this
  · intro d hd
    apply (hw.oneField d hd).append
    apply (h.oneField d hd).cons hq
    rintro rfl
    exact hsep hd
  · obtain ⟨x, xs, rfl, _⟩ := hw.bounded.first
    exact hw.first

/-- Pieces on both sides of a text that is no quotation mark and no separator make a piece. -/
theorem Piece.join {seps sigils : List Char} {c : Char} {parts : List (List Char)}
    (hq : c ≠ '"') (hc : isControl c = false) (hsep : c ∉ seps) (hne : parts ≠ [])
    (h : ∀ s ∈ parts, Piece seps sigils s) : Piece seps sigils (join [c] parts) := by
  refine ⟨.join hne fun s hs => (h s hs).bounded,
    .join (.cons hc (by simp [NoControl])) fun s hs => (h s hs).noControl, ?_, ?_⟩
  · intro d hd
    apply OneField.join hq
    · rintro rfl
      exact hsep hd
    · exact fun s hs => (h s hs).oneField d hd
  · obtain ⟨s, rest, rfl⟩ := List.exists_cons_of_ne_nil hne
    obtain ⟨x, xs, hx, _⟩ := (h s (by simp)).bounded.first
    have hfirst : (Text.join [c] (s :: rest)).head? = s.head? := by
      cases rest with
      | nil => rw [join_single]
      | cons t rest =>
        rw [join_cons_cons, hx]
        rfl
    rw [hfirst]
    exact (h s (by simp)).first

/-- Pieces joined with one of their separators are split again. -/
theorem Piece.split_join {seps sigils : List Char} {c : Char} {parts : List (List Char)}
    (hq : c ≠ '"') (hsep : c ∈ seps) (hne : parts ≠ []) (h : ∀ s ∈ parts, Piece seps sigils s) :
    splitQuoted c (Text.join [c] parts) = .ok parts :=
  Text.split_join hq hne fun s hs => (h s hs).oneField c hsep

end DocForms.Text
