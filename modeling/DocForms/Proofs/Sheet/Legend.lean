import DocForms.Sheet.Reader
import DocForms.Proofs.Text.Pieces

namespace DocForms.Sheet
open Text

theorem show_name_cases (r : Registry) (block : List String) (name : String) :
    (isExpandable r name = true ∧ r.expand name ∉ block ∧
      showName r block name = ⟨r.expand name, true⟩) ∨
    showName r block name = ⟨name, false⟩ := by
  unfold showName
  split
  · rename_i h
    simp only [Bool.and_eq_true, Bool.not_eq_true', List.contains_eq_mem,
      decide_eq_false_iff_not] at h
    exact .inl ⟨h.1, h.2, rfl⟩
  · exact .inr rfl

theorem show_heading_cases (r : Registry) (id : String) :
    (isExpandable r id = true ∧ r.expand id ≠ reservedId ∧
      showHeading r id = ⟨r.expand id, true⟩) ∨
    showHeading r id = ⟨id, false⟩ := by
  unfold showHeading
  split
  · rename_i h
    simp only [Bool.and_eq_true, bne_iff_ne] at h
    exact .inl ⟨h.1, h.2, rfl⟩
  · exact .inr rfl

theorem expandable_back {r : Registry} {name : String} (h : isExpandable r name = true) :
    r.collapse (r.expand name) = name ∧ isName (r.expand name) = true := by
  simp only [isExpandable, Bool.and_eq_true, beq_iff_eq] at h
  exact ⟨h.1.2, h.2⟩

/-- A shown name is a name, and is never the reserved heading. -/
theorem show_name_is_name {r : Registry} {block : List String} {name : String}
    (h : isName name = true) : isName (showName r block name).text = true := by
  rcases show_name_cases r block name with ⟨he, _, hs⟩ | hs
  · rw [hs]
    exact (expandable_back he).2
  · rw [hs]
    exact h

theorem show_heading_is_name {r : Registry} {id : String} (h : isName id = true) :
    isName (showHeading r id).text = true := by
  rcases show_heading_cases r id with ⟨he, _, hs⟩ | hs
  · rw [hs]
    exact (expandable_back he).2
  · rw [hs]
    exact h

theorem show_heading_not_reserved {r : Registry} {id : String} (h : id ≠ reservedId) :
    (showHeading r id).text ≠ reservedId := by
  rcases show_heading_cases r id with ⟨_, hne, hs⟩ | hs
  · rw [hs]
    exact hne
  · rw [hs]
    exact h

/-- What stands in a legend: the expanded names, and the expanded heading in brackets. -/
theorem mem_legend {heading? : Option ShownName} {names : List ShownName} {entry : List Char} :
    entry ∈ legendEntries heading? names ↔
      (∃ n, heading? = some n ∧ n.expanded = true ∧ entry = bracketed n.text.toList) ∨
      ∃ n ∈ names, n.expanded = true ∧ entry = n.text.toList := by
  simp only [legendEntries, List.mem_append, List.mem_map, List.mem_filter, Option.mem_toList]
  constructor
  · rintro (⟨n, ⟨hn, he⟩, rfl⟩ | ⟨n, ⟨hn, he⟩, rfl⟩)
    · exact .inl ⟨n, Option.mem_def.mp (by simpa using hn), he, rfl⟩
    · exact .inr ⟨n, hn, he, rfl⟩
  · rintro (⟨n, hn, he, rfl⟩ | ⟨n, hn, he, rfl⟩)
    · exact .inl ⟨n, ⟨by simp [hn], he⟩, rfl⟩
    · exact .inr ⟨n, ⟨hn, he⟩, rfl⟩

theorem name_not_bracketed {name : String} (h : isName name = true) (s : List Char) :
    name.toList ≠ bracketed s := by
  intro heq
  have hword : Word name.toList := name_is_word h
  exact hword.not_mem (c := '[') (by decide) (by rw [heq]; simp [bracketed])

/-- The legend leads back from a shown name to the name meant. -/
theorem name_meant {r : Registry} {block : List String} {heading? : Option ShownName}
    (hblock : ∀ n ∈ block, isName n = true) {name : String} (hname : name ∈ block) :
    nameMeant r (legendEntries heading? (showNames r block)) (showName r block name).text.toList =
      name := by
  unfold nameMeant
  rcases show_name_cases r block name with ⟨he, hfull, hs⟩ | hs
  · have hmem : (r.expand name).toList ∈ legendEntries heading? (showNames r block) :=
      mem_legend.mpr (.inr ⟨⟨r.expand name, true⟩, List.mem_map.mpr ⟨name, hname, hs⟩, rfl, rfl⟩)
    rw [hs, if_pos (by simpa using hmem), String.ofList_toList]
    exact (expandable_back he).1
  · have hmem : name.toList ∉ legendEntries heading? (showNames r block) := by
      intro hm
      rcases mem_legend.mp hm with ⟨n, _, _, heq⟩ | ⟨n, hn, hexpanded, heq⟩
      · exact name_not_bracketed (hblock name hname) _ heq
      · obtain ⟨other, _, rfl⟩ := List.mem_map.mp hn
        rcases show_name_cases r block other with ⟨_, hfull, hother⟩ | hother
        · rw [hother] at heq
          have htext : name = r.expand other := String.toList_injective heq
          exact hfull (htext ▸ hname)
        · rw [hother] at hexpanded
          cases hexpanded
    rw [hs, if_neg (by simpa using hmem), String.ofList_toList]

/-- The legend leads back from a shown heading to the section id meant. -/
theorem heading_meant {r : Registry} {id : String} {names : List ShownName}
    (hnames : ∀ n ∈ names, isName n.text = true) :
    headingMeant r (legendEntries (some (showHeading r id)) names)
      (showHeading r id).text.toList = id := by
  unfold headingMeant
  rcases show_heading_cases r id with ⟨he, _, hs⟩ | hs
  · have hmem : bracketed (r.expand id).toList ∈
        legendEntries (some (showHeading r id)) names :=
      mem_legend.mpr (.inl ⟨_, rfl, by rw [hs], by rw [hs]⟩)
    rw [hs] at hmem ⊢
    rw [if_pos (by simpa using hmem), String.ofList_toList]
    exact (expandable_back he).1
  · have hmem : bracketed id.toList ∉ legendEntries (some (showHeading r id)) names := by
      intro hm
      rcases mem_legend.mp hm with ⟨n, hn, hexpanded, _⟩ | ⟨n, hn, _, heq⟩
      · cases hn
        rw [hs] at hexpanded
        cases hexpanded
      · exact name_not_bracketed (hnames n hn) _ heq.symm
    rw [hs] at hmem ⊢
    rw [if_neg (by simpa using hmem), String.ofList_toList]

/-- An entry of a legend keeps clear of the commas between entries. -/
structure LegendEntry (entry : List Char) : Prop where
  bounded : Bounded entry
  noControl : NoControl entry
  noComma : ',' ∉ entry

theorem name_entry {name : String} (h : isName name = true) : LegendEntry name.toList := by
  have hword : Word name.toList := name_is_word h
  exact ⟨hword.bounded, hword.no_control, hword.not_mem (by decide)⟩

theorem bracketed_entry {name : String} (h : isName name = true) :
    LegendEntry (bracketed name.toList) := by
  have hword : Word name.toList := name_is_word h
  refine ⟨⟨⟨'[', _, rfl, by decide⟩, '[' :: name.toList, ']', rfl, by decide⟩, ?_, ?_⟩
  · exact (hword.no_control.cons (by decide)).append (by unfold NoControl; decide)
  · have hcomma : ',' ∉ name.toList := hword.not_mem (by decide)
    simp [bracketed, hcomma]

theorem legend_entries {heading? : Option ShownName} {names : List ShownName}
    (hheading : ∀ n ∈ heading?, isName n.text = true)
    (hnames : ∀ n ∈ names, isName n.text = true) :
    ∀ entry ∈ legendEntries heading? names, LegendEntry entry := by
  intro entry hm
  rcases mem_legend.mp hm with ⟨n, hn, _, rfl⟩ | ⟨n, hn, _, rfl⟩
  · exact bracketed_entry (hheading n hn)
  · exact name_entry (hnames n hn)

theorem read_legend {entries : List (List Char)} (hne : entries ≠ [])
    (h : ∀ e ∈ entries, LegendEntry e) : readLegend (' ' :: join [',', ' '] entries) = entries := by
  have htrim : ∀ e ∈ entries, trim (' ' :: e) = e := fun e he => trim_space (h e he).bounded
  have hsplit : splitOn ',' (join [','] (entries.map (' ' :: ·))) = entries.map (' ' :: ·) := by
    apply split_on_join (by simpa using hne)
    intro f hf
    obtain ⟨e, he, rfl⟩ := List.mem_map.mp hf
    simp [(h e he).noComma]
  have hmap : (entries.map (' ' :: ·)).map trim = entries := by
    rw [List.map_map]
    calc entries.map (trim ∘ (' ' :: ·)) = entries.map id := List.map_congr_left htrim
      _ = entries := List.map_id entries
  rw [readLegend, join_comma_space hne, hsplit, hmap, List.filter_eq_self]
  intro e he
  simp [(h e he).bounded.ne_nil]

theorem legend_line_bounded {entries : List (List Char)} (hne : entries ≠ [])
    (h : ∀ e ∈ entries, LegendEntry e) :
    Bounded (legendStart ++ ' ' :: join [',', ' '] entries) ∧
      NoControl (legendStart ++ ' ' :: join [',', ' '] entries) := by
  have hjoin : Bounded (join [',', ' '] entries) := .join hne fun e he => (h e he).bounded
  have hstart : Bounded legendStart :=
    ⟨⟨'#', _, rfl, by decide⟩, "# expanded".toList, ':', by decide, by decide⟩
  constructor
  · have := hstart.append hjoin [' ']
    rwa [List.append_assoc] at this
  · apply NoControl.append (by unfold NoControl; decide)
    apply NoControl.cons (by decide)
    exact .join (by unfold NoControl; decide) fun e he => (h e he).noControl

/-- The line of a legend is told from other comments, and its entries are read back. -/
theorem legend_line_kind {entries : List (List Char)} (hne : entries ≠ [])
    (h : ∀ e ∈ entries, LegendEntry e) :
    LineKind.of (legendStart ++ ' ' :: join [',', ' '] entries) = .legend entries := by
  obtain ⟨hbounded, _⟩ := legend_line_bounded hne h
  have hprefix : dropStart? legendStart (legendStart ++ ' ' :: join [',', ' '] entries) =
      some (' ' :: join [',', ' '] entries) := by
    rw [dropStart?, if_pos (List.isPrefixOf_iff_prefix.mpr (List.prefix_append _ _)),
      List.drop_left]
  have hheading : headingName? (legendStart ++ ' ' :: join [',', ' '] entries) = none := rfl
  have hhash : (legendStart ++ ' ' :: join [',', ' '] entries).head? = some '#' := rfl
  simp only [LineKind.of, trim_end_bounded hbounded, trim_start_bounded hbounded, hheading, hhash,
    if_true, hprefix, read_legend hne h]

theorem heading_line_kind {name : String} (h : isName name = true) :
    LineKind.of (bracketed name.toList) = .heading name.toList := by
  have hname : isNameText name.toList = true := h
  have hheading : headingName? (bracketed name.toList) = some name.toList := by
    simp [bracketed, headingName?, dropLast?, Option.filter, hname]
  simp only [LineKind.of, trim_end_bounded (bracketed_entry h).bounded, hheading]

end DocForms.Sheet
