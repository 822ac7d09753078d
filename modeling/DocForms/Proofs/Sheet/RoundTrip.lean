import DocForms.Proofs.Sheet.Blocks
import DocForms.Proofs.Text.Lines

namespace DocForms.Sheet
open Text Layout

/-- Lines put before what has been cut already. -/
def cutBefore (ls : List Line) (c : Cut) : Cut :=
  (ls.map fun l => (l.1, LineKind.of l.2)).foldr Cut.addLine c

theorem cut_append (ls ms : List Line) : cut (ls ++ ms) = cutBefore ls (cut ms) := by
  rw [cut, List.map_append, List.foldr_append]
  rfl

theorem cut_before_append (ls ms : List Line) (c : Cut) :
    cutBefore (ls ++ ms) c = cutBefore ls (cutBefore ms c) := by
  rw [cutBefore, List.map_append, List.foldr_append]
  rfl

theorem cut_before_cons (l : Line) (ls : List Line) (c : Cut) :
    cutBefore (l :: ls) c = Cut.addLine (l.1, LineKind.of l.2) (cutBefore ls c) := rfl

theorem cut_contents {ls : List Line} (h : ∀ l ∈ ls, LineKind.of l.2 = .content l.2) (c : Cut) :
    cutBefore ls c = { c with body := ls ++ c.body } := by
  induction ls with
  | nil => rfl
  | cons l rest ih =>
    have hrest := ih fun m hm => h m (List.mem_cons_of_mem _ hm)
    rw [cut_before_cons, h l (by simp), hrest]
    rfl

/-- A cut with nothing before its first block but empty lines. -/
structure Cut.Clear (c : Cut) : Prop where
  legend : c.legend = []
  body : ∀ l ∈ c.body, l.2 = []

theorem cut_legend {entries : List (List Char)} (h : ∀ e ∈ entries, LegendEntry e) {ls : List Line}
    (hls : ls.map Prod.snd = legendLines entries) {c : Cut} (hc : c.legend = []) :
    cutBefore ls c = { c with legend := entries } := by
  unfold legendLines at hls
  split at hls
  · rename_i hempty
    rw [List.map_eq_nil_iff.mp hls, List.isEmpty_iff.mp hempty, ← hc]
    rfl
  · rename_i hne
    obtain ⟨l, ls, rfl, hl, hls⟩ := List.map_eq_cons_iff.mp hls
    rw [List.map_eq_nil_iff.mp hls]
    have hkind := legend_line_kind (by simpa using hne) h
    have hnil : cutBefore [] c = c := rfl
    rw [cut_before_cons, hl, hkind, hnil]
    simp only [Cut.addLine, hc, List.append_nil]

/-- A block is cut out with its legend and the lines under it. -/
theorem cut_block {name : String} (hname : isName name = true) {entries : List (List Char)}
    (hentries : ∀ e ∈ entries, LegendEntry e) {content : List (List Char)}
    (hcontent : ∀ l ∈ content, LineKind.of l = .content l) {ls : List Line}
    (hls : ls.map Prod.snd = bracketed name.toList :: legendLines entries ++ content) {c : Cut}
    (hc : c.Clear) :
    ∃ n body tail, cutBefore ls c =
        { blocks := ⟨n, name.toList, entries, body ++ tail⟩ :: c.blocks } ∧
      body.map Prod.snd = content ∧ ∀ l ∈ tail, l.2 = [] := by
  obtain ⟨l, rest, rfl, hl, hrest⟩ := List.map_eq_cons_iff.mp hls
  obtain ⟨legend, body, rfl, hlegend, hbody⟩ := List.map_eq_append_iff.mp hrest
  have hkinds : ∀ m ∈ body, LineKind.of m.2 = .content m.2 :=
    fun m hm => hcontent m.2 (hbody ▸ List.mem_map_of_mem hm)
  have hbefore := cut_legend hentries hlegend (c := { c with body := body ++ c.body }) hc.legend
  refine ⟨l.1, body, c.body, ?_, hbody, hc.body⟩
  rw [cut_before_cons, hl, heading_line_kind hname, cut_before_append, cut_contents hkinds, hbefore]
  rfl

theorem block_head_no_control {name : String} (hname : isName name = true)
    {entries : List (List Char)} (hentries : ∀ e ∈ entries, LegendEntry e) :
    ∀ l ∈ bracketed name.toList :: legendLines entries, NoControl l := by
  intro l hl
  rcases List.mem_cons.mp hl with rfl | hl
  · exact (bracketed_entry hname).noControl
  · unfold legendLines at hl
    split at hl
    · cases hl
    · rename_i hne
      rw [List.mem_singleton.mp hl]
      exact (legend_line_bounded (by simpa using hne) hentries).2

theorem clear_blank {c : Cut} (hc : c.Clear) {l : Line} (hl : l.2 = []) :
    (cutBefore [l] c).Clear ∧ (cutBefore [l] c).blocks = c.blocks := by
  have hkind : ∀ m ∈ [l], LineKind.of m.2 = .content m.2 := by
    intro m hm
    rw [List.mem_singleton.mp hm, hl]
    rfl
  rw [cut_contents hkind]
  refine ⟨⟨hc.legend, ?_⟩, rfl⟩
  intro m hm
  rcases List.mem_append.mp hm with hm | hm
  · rw [List.mem_singleton.mp hm, hl]
  · exact hc.body m hm

/-- Blocks after another, each with an empty line before it. -/
def following (blocks : List (List (List Char))) : List (List Char) :=
  blocks.flatMap fun b => [] :: b

theorem stack_following (b : List (List Char)) (bs : List (List (List Char))) :
    stack [[]] (b :: bs) = b ++ following bs := by
  induction bs generalizing b with
  | nil => simp [stack_single, following]
  | cons b' bs ih =>
    have hsplit := stack_map_cons [([] : List Char)] id b b' bs
    rw [List.map_id, List.map_id] at hsplit
    rw [hsplit, ih]
    simp [following]

section
variable {r : Registry} {o : Options}

/-- The names that a section's block shows. -/
abbrev shownColumns (r : Registry) (s : Section) : List ShownName :=
  showNames r (s.columns.map Column.name)

theorem shown_columns_names {s : Section} (hs : s.Lawful) :
    ∀ n ∈ shownColumns r s, isName n.text = true := by
  intro n hn
  obtain ⟨name, hname, rfl⟩ := List.mem_map.mp hn
  obtain ⟨c, hc, rfl⟩ := List.mem_map.mp hname
  exact show_name_is_name (hs.columnsNamed c hc)

theorem section_entries {s : Section} (hs : s.Lawful) :
    ∀ e ∈ legendEntries (some (showHeading r s.id)) (shownColumns r s), LegendEntry e := by
  apply legend_entries _ (shown_columns_names hs)
  intro n hn
  cases hn
  exact show_heading_is_name hs.named

theorem section_lines_eq (s : Section) : sectionLines r o s =
    bracketed (showHeading r s.id).text.toList ::
      legendLines (legendEntries (some (showHeading r s.id)) (shownColumns r s)) ++
      render o (headingsOf r s) (tableRows s) := by
  simp only [sectionLines, headings_eq]

/-- The block of a section is cut out, and adds the section. -/
theorem cut_section {s : Section} (hs : s.Lawful) (hgap : 2 ≤ o.columnGap) {ls : List Line}
    (hls : ls.map Prod.snd = sectionLines r o s) {c : Cut} (hc : c.Clear) :
    ∃ b, cutBefore ls c = { blocks := b :: c.blocks } ∧
      ∀ d : Draft, s.id ∉ (d.placed.map Prod.snd).map Section.id →
        d.addBlock r b = .ok { d with placed := d.placed ++ [(b.line, s)] } := by
  rw [section_lines_eq] at hls
  obtain ⟨n, body, tail, hcut, hbody, htail⟩ :=
    cut_block (show_heading_is_name hs.named) (section_entries hs)
      (fun l hl => (section_lines_kind hs hgap l hl).1) hls hc
  refine ⟨_, hcut, ?_⟩
  intro d hnew
  have hid := @heading_meant r s.id _ (shown_columns_names (r := r) hs)
  have hnotConfig : (showHeading r s.id).text.toList ≠ reservedId.toList := by
    intro heq
    exact show_heading_not_reserved hs.notReserved (String.toList_injective heq)
  have hfresh : (d.placed.any fun p => p.2.id == s.id) = false := by
    apply List.any_eq_false.mpr
    intro p hp heq
    apply hnew
    rw [← eq_of_beq heq]
    exact List.mem_map_of_mem (List.mem_map_of_mem hp)
  have hread := read_section (b := ⟨n, (showHeading r s.id).text.toList,
    legendEntries (some (showHeading r s.id)) (shownColumns r s), body ++ tail⟩) hs hgap rfl
    (fun t ht => by
      obtain ⟨l, hl, rfl⟩ := List.mem_map.mp ht
      exact htail l hl)
    (by rw [List.map_append, hbody])
  rw [Draft.addBlock, if_neg hnotConfig, Draft.addSection]
  simp only [hid, hfresh, hread]
  rfl

/-- The block of the context. -/
def configWidth (r : Registry) (c : Context) : Nat :=
  ((showNames r c.keys).map (·.text.length)).foldl max 0

theorem config_lines_eq (c : Context) : configLines r c =
    bracketed reservedId.toList :: legendLines (legendEntries none (showNames r c.keys)) ++
      c.entries.map fun e => assignmentLine (configWidth r c) (showName r c.keys e.1) e.2 := by
  have hlines : (showNames r c.keys).zipWith (assignmentLine (configWidth r c)) c.values =
      c.entries.map fun e => assignmentLine (configWidth r c) (showName r c.keys e.1) e.2 := by
    generalize configWidth r c = width
    have hnames : showNames r c.keys = c.entries.map fun e => showName r c.keys e.1 := by
      rw [showNames]
      exact List.map_map
    rw [hnames, Fields.values, List.zipWith_map, List.zipWith_self]
  rw [← hlines]
  rfl

theorem context_keys {c : Context} (hc : ∀ e ∈ c.entries, isName e.1 = true ∧ e.2.Lawful none) :
    ∀ k ∈ c.keys, isName k = true := by
  intro k hk
  obtain ⟨e, he, rfl⟩ := List.mem_map.mp hk
  exact (hc e he).1

theorem config_entries {c : Context} (hc : ∀ e ∈ c.entries, isName e.1 = true ∧ e.2.Lawful none) :
    ∀ e ∈ legendEntries none (showNames r c.keys), LegendEntry e := by
  apply legend_entries (by simp)
  intro n hn
  obtain ⟨k, hk, rfl⟩ := List.mem_map.mp hn
  exact show_name_is_name (context_keys hc k hk)

theorem assignment_lines_kind {c : Context}
    (hc : ∀ e ∈ c.entries, isName e.1 = true ∧ e.2.Lawful none) (width : Nat) :
    ∀ l ∈ c.entries.map fun e => assignmentLine width (showName r c.keys e.1) e.2,
      LineKind.of l = .content l ∧ NoControl l := by
  intro l hl
  obtain ⟨e, he, rfl⟩ := List.mem_map.mp hl
  exact (assignment_kind (show_name_is_name (hc e he).1) (hc e he).2).2

theorem reserved_is_name : isName reservedId = true := by decide

theorem cut_config {context : Context}
    (hcontext : ∀ e ∈ context.entries, isName e.1 = true ∧ e.2.Lawful none) {ls : List Line}
    (hls : ls.map Prod.snd = configLines r context) {c : Cut} (hc : c.Clear) :
    ∃ b, cutBefore ls c = { blocks := b :: c.blocks } ∧
      Draft.addBlock r {} b = .ok { context, configLine := some b.line, placed := [] } := by
  rw [config_lines_eq] at hls
  obtain ⟨n, body, tail, hcut, hbody, htail⟩ :=
    cut_block reserved_is_name (config_entries hcontext)
      (fun l hl => (assignment_lines_kind hcontext _ l hl).1) hls hc
  refine ⟨_, hcut, ?_⟩
  have hread := read_assignments hcontext hbody
  rw [Draft.addBlock, if_pos rfl, Draft.addConfig, List.foldlM_append, hread, ok_bind,
    add_blank_assignments htail]
  rfl

/-- The sections that follow are cut out from the last to the first, and read from the first to the
last. -/
theorem read_following {sections : List Section} (hs : ∀ s ∈ sections, s.Lawful)
    (hgap : 2 ≤ o.columnGap) {ls : List Line}
    (hls : ls.map Prod.snd = following (sections.map (sectionLines r o))) :
    (cut ls).Clear ∧ ∀ d : Draft, (((d.placed.map Prod.snd) ++ sections).map Section.id).Nodup →
      ∃ placed, (cut ls).blocks.foldlM (Draft.addBlock r) d = .ok { d with placed } ∧
        placed.map Prod.snd = d.placed.map Prod.snd ++ sections := by
  induction sections generalizing ls with
  | nil =>
    rw [List.map_eq_nil_iff.mp hls]
    exact ⟨⟨rfl, by simp [cut]⟩, fun d _ => ⟨d.placed, rfl, by simp⟩⟩
  | cons s rest ih =>
    obtain ⟨blank, ls, rfl, hblank, hls⟩ := List.map_eq_cons_iff.mp hls
    obtain ⟨block, ls, rfl, hblock, hls⟩ := List.map_eq_append_iff.mp hls
    obtain ⟨hclear, hrun⟩ := ih (fun t ht => hs t (List.mem_cons_of_mem _ ht)) hls
    obtain ⟨b, hcut, hadd⟩ := cut_section (hs s (by simp)) hgap hblock hclear
    have hcons : cut (blank :: (block ++ ls)) = cutBefore [blank] (cutBefore block (cut ls)) := by
      rw [← cut_append block ls]
      exact cut_append [blank] (block ++ ls)
    have hclear' : (cutBefore block (cut ls)).Clear := by
      rw [hcut]
      exact ⟨rfl, by simp⟩
    obtain ⟨hclear'', hblocks⟩ := clear_blank hclear' hblank
    rw [hcons]
    refine ⟨hclear'', ?_⟩
    intro d hnodup
    have hnew : s.id ∉ (d.placed.map Prod.snd).map Section.id := by
      rw [List.map_append, List.map_cons, List.nodup_append] at hnodup
      exact fun hm => hnodup.2.2 _ hm _ (by simp) rfl
    obtain ⟨placed, hfold, hplaced⟩ := hrun { d with placed := d.placed ++ [(b.line, s)] } (by
      simpa using hnodup)
    refine ⟨placed, ?_, by simpa using hplaced⟩
    rw [hblocks, hcut, List.foldlM_cons, hadd d hnew, ok_bind, hfold]

theorem section_block_no_control {s : Section} (hs : s.Lawful) (hgap : 2 ≤ o.columnGap) :
    ∀ l ∈ sectionLines r o s, NoControl l := by
  intro l hl
  rw [section_lines_eq] at hl
  rcases List.mem_append.mp hl with hl | hl
  · exact block_head_no_control (show_heading_is_name hs.named) (section_entries hs) l hl
  · exact (section_lines_kind hs hgap l hl).2

/-- What a sheet's lines are cut into and read as. -/
structure ReadsAs (r : Registry) (ls : List Line) (d : Document) : Prop where
  clear : (cut ls).Clear
  blocks : ∃ e : Draft, (cut ls).blocks.foldlM (Draft.addBlock r) {} = .ok e ∧
    e.context = d.context ∧ e.placed.map Prod.snd = d.sections

/-- The first block is cut out and read, and after it the rest. -/
theorem reads_first {block more : List Line} {b : Block} {d : Document} {first e : Draft}
    (hcut : cutBefore block (cut more) = { blocks := b :: (cut more).blocks })
    (hadd : Draft.addBlock r {} b = .ok first)
    (hmore : (cut more).blocks.foldlM (Draft.addBlock r) first = .ok e)
    (hcontext : e.context = d.context) (hplaced : e.placed.map Prod.snd = d.sections) :
    ReadsAs r (block ++ more) d := by
  refine ⟨?_, e, ?_, hcontext, hplaced⟩
  · rw [cut_append, hcut]
    exact ⟨rfl, by simp⟩
  · rw [cut_append, hcut, List.foldlM_cons, hadd, ok_bind]
    exact hmore

theorem reads_without_context {d : Document} (hd : d.Lawful) (hgap : 2 ≤ o.columnGap)
    (hempty : d.context = ∅) {ls : List Line}
    (hls : ls.map Prod.snd = stack [[]] (d.sections.map (sectionLines r o))) : ReadsAs r ls d := by
  cases hsections : d.sections with
  | nil =>
    rw [hsections] at hls
    rw [List.map_eq_nil_iff.mp hls]
    exact ⟨⟨rfl, by simp [cut]⟩, {}, rfl, hempty.symm, hsections.symm⟩
  | cons s rest =>
    have hlawful : ∀ t ∈ s :: rest, t.Lawful := hsections ▸ hd.sections
    have hnodup := hd.sectionsDiffer
    rw [hsections, List.map_cons, stack_following] at hls
    rw [hsections] at hnodup
    obtain ⟨block, more, rfl, hblock, hmore⟩ := List.map_eq_append_iff.mp hls
    obtain ⟨hclear, hrun⟩ :=
      read_following (fun t ht => hlawful t (List.mem_cons_of_mem _ ht)) hgap hmore
    obtain ⟨b, hcut, hadd⟩ := cut_section (hlawful s (by simp)) hgap hblock hclear
    obtain ⟨placed, hfold, hplaced⟩ := hrun { placed := [(b.line, s)] } hnodup
    exact reads_first hcut (hadd {} (by simp)) hfold hempty.symm (hplaced.trans hsections.symm)

theorem reads_with_context {d : Document} (hd : d.Lawful) (hgap : 2 ≤ o.columnGap) {ls : List Line}
    (hls : ls.map Prod.snd =
      stack [[]] (configLines r d.context :: d.sections.map (sectionLines r o))) :
    ReadsAs r ls d := by
  rw [stack_following] at hls
  obtain ⟨block, more, rfl, hblock, hmore⟩ := List.map_eq_append_iff.mp hls
  obtain ⟨hclear, hrun⟩ := read_following hd.sections hgap hmore
  obtain ⟨b, hcut, hadd⟩ := cut_config hd.context hblock hclear
  obtain ⟨placed, hfold, hplaced⟩ :=
    hrun { context := d.context, configLine := some b.line, placed := [] } hd.sectionsDiffer
  exact reads_first hcut hadd hfold rfl hplaced

/-- The lines of a sheet read as the document. -/
theorem reads_document {d : Document} (hd : d.Lawful) {ls : List Line}
    (hls : ls.map Prod.snd = documentLines r o d) : ReadsAs r ls d := by
  have hgap : 2 ≤ ({ o with columnGap := max o.columnGap minColumnGap } : Options).columnGap :=
    Nat.le_max_right _ _
  rw [documentLines, blocks] at hls
  by_cases hempty : d.context.entries = []
  · rw [if_pos (by simp [Fields.isEmpty, hempty])] at hls
    exact reads_without_context hd hgap (Fields.eq_of_entries hempty) hls
  · rw [if_neg (by simp [Fields.isEmpty, hempty])] at hls
    exact reads_with_context hd hgap hls

theorem document_lines_no_control {d : Document} (hd : d.Lawful) :
    ∀ l ∈ documentLines r o d, NoControl l := by
  have hgap : 2 ≤ ({ o with columnGap := max o.columnGap minColumnGap } : Options).columnGap :=
    Nat.le_max_right _ _
  intro l hl
  rcases mem_stack hl with hl | ⟨block, hblock, hl⟩
  · rw [List.mem_singleton.mp hl]
    simp [NoControl]
  rcases List.mem_append.mp hblock with hblock | hblock
  · split at hblock
    · cases hblock
    · rw [List.mem_singleton.mp hblock, config_lines_eq] at hl
      rcases List.mem_append.mp hl with hl | hl
      · exact block_head_no_control reserved_is_name (config_entries hd.context) l hl
      · exact (assignment_lines_kind hd.context _ l hl).2
  · obtain ⟨s, hs, rfl⟩ := List.mem_map.mp hblock
    exact section_block_no_control (hd.sections s hs) hgap l hl

end

/-- Every valid document can be written. -/
theorem write_ok {r : Registry} {o : Options} {d : Document} (hd : d.isValid = true) :
    write r o d = .ok (String.ofList ((documentLines r o d).flatMap fun l => l ++ ['\n'])) := by
  rw [write, Document.requireValid, if_pos hd]
  rfl

/-- What is written is read back. -/
theorem read_of_write {r : Registry} {o : Options} {d : Document} {text : String}
    (h : write r o d = .ok text) : read r text = .ok d := by
  rw [write, Document.requireValid] at h
  split at h
  · rename_i hvalid
    cases h
    have hlawful := Document.is_valid_iff.mp hvalid
    obtain ⟨hclear, e, hfold, hcontext, hplaced⟩ :=
      reads_document (r := r) hlawful (numbered_from_texts 1 (documentLines r o d))
    have hbody : ((cut (numberedFrom 1 (documentLines r o d))).body.find?
        fun l => !isBlankLine l.2) = none := by
      simp +contextual [hclear.body, isBlankLine]
    rw [read, String.toList_ofList, lines_text (document_lines_no_control hlawful), readLines,
      numbered_eq, blocksOf]
    simp only [hbody, ok_bind, hfold]
    rw [Draft.finish, hcontext, hplaced, Document.checkRead, Document.violations_nil.mpr hlawful]
  · cases h

/-- A valid document is written as a sheet, and is read back as it was, under every registry and with
every width of lines and gap between columns. -/
theorem sheet_round_trip (r : Registry) (o : Options) (d : Document) (hd : d.isValid = true) :
    ∃ text, write r o d = .ok text ∧ read r text = .ok d :=
  ⟨_, write_ok hd, read_of_write (write_ok hd)⟩

/-- Names that stand for each other, for the reserved id and for no name at all. -/
def clashingNames : Registry :=
  Registry.standard.withEntries
    [("title", "copies"), ("copies", "title"), ("c", "config"), ("open", "not a name")]

theorem sheet_round_trip_shelf :
    shelf.isValid = true ∧ ∃ text, write clashingNames ⟨0, 0⟩ shelf = .ok text ∧
      read clashingNames text = .ok shelf :=
  ⟨by decide, sheet_round_trip clashingNames ⟨0, 0⟩ shelf (by decide)⟩

end DocForms.Sheet
