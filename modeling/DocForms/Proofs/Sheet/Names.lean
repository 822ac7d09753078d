import DocForms.Proofs.Sheet.RoundTrip
import Mathlib.Data.List.Forall2

namespace DocForms.Sheet
open Text Layout

/-- The names that a block is written for: the id of its section, or none if it is the block of the
context, and the names of the columns or fields. -/
structure BlockNames where
  id? : Option String
  names : List String
deriving DecidableEq, Repr

namespace BlockNames

structure Lawful (n : BlockNames) : Prop where
  idNamed : ∀ id ∈ n.id?, isName id = true ∧ id ≠ reservedId
  named : ∀ name ∈ n.names, isName name = true
  differ : n.names.Nodup

def heading? (r : Registry) (n : BlockNames) : Option ShownName :=
  n.id?.map (showHeading r)

/-- The name in the heading of the block. -/
def title (r : Registry) (n : BlockNames) : String :=
  (n.heading? r).elim reservedId ShownName.text

def legend (r : Registry) (n : BlockNames) : List (List Char) :=
  legendEntries (n.heading? r) (showNames r n.names)

/-- The lines that the block begins with. -/
def head (r : Registry) (n : BlockNames) : List (List Char) :=
  bracketed (n.title r).toList :: legendLines (n.legend r)

end BlockNames

/-- The id of the section that a block is read as, or none if it is read as the context. -/
def Block.id? (r : Registry) (b : Block) : Option String :=
  if b.name = reservedId.toList then none else some (headingMeant r b.legend b.name)

/-- A block leads back to names. -/
structure Recalls (r : Registry) (n : BlockNames) (b : Block) : Prop where
  id : b.id? r = n.id?
  names : (showNames r n.names).map (fun s => nameMeant r b.legend s.text.toList) = n.names

/-- A line that heads no block and is no legend. -/
def Under (l : List Char) : Prop :=
  LineKind.of l = .comment ∨ ∃ text, LineKind.of l = .content text

/-- A block as it is written for names. -/
def WrittenFor (r : Registry) (n : BlockNames) (block : List (List Char)) : Prop :=
  ∃ under, block = n.head r ++ under ∧ ∀ l ∈ under, Under l

/-- Blocks one after another, each with the names that it is written for. -/
inductive Headed (r : Registry) : List BlockNames → List (List Char) → Prop
  | nil : Headed r [] []
  | cons {n : BlockNames} {ns : List BlockNames} {block lines : List (List Char)}
    (first : WrittenFor r n block) (rest : Headed r ns lines) : Headed r (n :: ns) (block ++ lines)

section Blocks
variable {r : Registry} {n : BlockNames}

namespace BlockNames

theorem Lawful.shown (hn : n.Lawful) : ∀ s ∈ showNames r n.names, isName s.text = true := by
  intro s hs
  obtain ⟨name, hname, hshow⟩ := List.mem_map.mp hs
  rw [← hshow]
  exact show_name_is_name (hn.named name hname)

theorem Lawful.heading (hn : n.Lawful) : ∀ s ∈ n.heading? r, isName s.text = true := by
  intro s hs
  obtain ⟨id, hid, hshow⟩ := Option.mem_map.mp hs
  rw [← hshow]
  exact show_heading_is_name (hn.idNamed id hid).1

theorem Lawful.title_is_name (hn : n.Lawful) : isName (n.title r) = true := by
  unfold title
  cases hheading : n.heading? r with
  | none => exact reserved_is_name
  | some s => exact hn.heading s hheading

/-- The legend leads back from the shown names. -/
theorem Lawful.names_meant (hn : n.Lawful) :
    (showNames r n.names).map (fun s => nameMeant r (n.legend r) s.text.toList) = n.names := by
  rw [showNames, List.map_map]
  calc n.names.map _ = n.names.map id := List.map_congr_left fun name hname => name_meant hn.named hname
    _ = n.names := List.map_id n.names

/-- What leads back to different names differs. -/
theorem Lawful.shown_differ (hn : n.Lawful) :
    ((showNames r n.names).map ShownName.text).Nodup := by
  apply List.Nodup.of_map fun text => nameMeant r (n.legend r) text.toList
  have hmeant := hn.names_meant (r := r)
  rw [List.map_map, Function.comp_def, hmeant]
  exact hn.differ

/-- A block with the heading and the legend of its names leads back to them. -/
theorem Lawful.recalls (hn : n.Lawful) {b : Block} (hname : b.name = (n.title r).toList)
    (hlegend : b.legend = n.legend r) : Recalls r n b := by
  constructor
  case id =>
    unfold Block.id?
    rw [hname, hlegend]
    unfold title legend heading?
    cases hid : n.id? with
    | none => exact if_pos rfl
    | some id =>
      have hreserved : (showHeading r id).text.toList ≠ reservedId.toList := by
        intro heq
        exact show_heading_not_reserved (hn.idNamed id hid).2 (String.toList_injective heq)
      have hmeant := @heading_meant r id _ (hn.shown (r := r))
      simp only [Option.map_some, Option.elim_some, if_neg hreserved, hmeant]
  case names =>
    rw [hlegend]
    exact hn.names_meant

end BlockNames

/-- What stands under a head goes to the body of its block. -/
theorem cut_under {ls : List Line} (h : ∀ l ∈ ls, Under l.2) (c : Cut) :
    (cutBefore ls c).legend = c.legend ∧ (cutBefore ls c).blocks = c.blocks := by
  induction ls with
  | nil => exact ⟨rfl, rfl⟩
  | cons l ls ih =>
    obtain ⟨hlegend, hblocks⟩ := ih fun m hm => h m (List.mem_cons_of_mem _ hm)
    rw [cut_before_cons]
    rcases h l (by simp) with hkind | ⟨text, hkind⟩
    all_goals
      rw [hkind]
      exact ⟨hlegend, hblocks⟩

/-- A head becomes a block with all that follows up to the next one, and nothing is left before it. -/
theorem cut_head (hn : n.Lawful) {ls : List Line} (hls : ls.map Prod.snd = n.head r) {c : Cut}
    (hc : c.legend = []) : ∃ b, cutBefore ls c = { blocks := b :: c.blocks } ∧ Recalls r n b := by
  obtain ⟨l, legend, rfl, hl, hlegend⟩ := List.map_eq_cons_iff.mp hls
  have hentries := cut_legend (legend_entries hn.heading hn.shown) hlegend hc
  refine ⟨⟨l.1, (n.title r).toList, n.legend r, c.body⟩, ?_, hn.recalls rfl rfl⟩
  rw [cut_before_cons, hl, heading_line_kind hn.title_is_name, hentries]
  rfl

theorem cut_written (hn : n.Lawful) {block : List (List Char)} (hblock : WrittenFor r n block)
    {ls : List Line} (hls : ls.map Prod.snd = block) {c : Cut} (hc : c.legend = []) :
    ∃ b, cutBefore ls c = { blocks := b :: c.blocks } ∧ Recalls r n b := by
  obtain ⟨under, rfl, hunder⟩ := hblock
  obtain ⟨head, body, rfl, hhead, hbody⟩ := List.map_eq_append_iff.mp hls
  have hkinds : ∀ l ∈ body, Under l.2 := fun l hl => hunder l.2 (hbody ▸ List.mem_map_of_mem hl)
  obtain ⟨hlegend, hblocks⟩ := cut_under hkinds c
  obtain ⟨b, hcut, hrecalls⟩ := cut_head hn hhead (hlegend.trans hc)
  refine ⟨b, ?_, hrecalls⟩
  rw [cut_before_append, hcut, hblocks]

/-- By induction on the blocks: each is cut out of the lines with the legend of its own, so that none
meets the names of another. -/
theorem Headed.cut {ns : List BlockNames} {lines : List (List Char)} (h : Headed r ns lines)
    (hns : ∀ n ∈ ns, n.Lawful) {ls : List Line} (hls : ls.map Prod.snd = lines) :
    ∃ blocks, Sheet.cut ls = { blocks } ∧ List.Forall₂ (Recalls r) ns blocks := by
  induction h generalizing ls with
  | nil =>
    rw [List.map_eq_nil_iff.mp hls]
    exact ⟨[], rfl, .nil⟩
  | cons first _ ih =>
    obtain ⟨block, more, rfl, hblock, hmore⟩ := List.map_eq_append_iff.mp hls
    obtain ⟨blocks, hcut, hrecalls⟩ := ih (fun m hm => hns m (List.mem_cons_of_mem _ hm)) hmore
    obtain ⟨b, hcutBlock, hb⟩ := cut_written (hns _ (by simp)) first hblock (c := { blocks }) rfl
    refine ⟨b :: blocks, ?_, .cons hb hrecalls⟩
    rw [cut_append, hcut, hcutBlock]

end Blocks

section Documents
variable {r : Registry} {o : Options}

/-- The names of each block of a document's sheet. -/
def blockNames (d : Document) : List BlockNames :=
  (if d.context.isEmpty then [] else [⟨none, d.context.keys⟩]) ++
    d.sections.map fun s => ⟨some s.id, s.columns.map Column.name⟩

theorem block_names_lawful {d : Document} (hd : d.Lawful) : ∀ n ∈ blockNames d, n.Lawful := by
  intro n hn
  rcases List.mem_append.mp hn with hcontext | hsection
  · split at hcontext
    · cases hcontext
    · rw [List.mem_singleton.mp hcontext]
      exact ⟨by simp, context_keys hd.context, d.context.nodup⟩
  · obtain ⟨s, hs, heq⟩ := List.mem_map.mp hsection
    have hlawful := hd.sections s hs
    rw [← heq]
    refine ⟨?_, ?_, hlawful.columnsDiffer⟩
    · intro id hid
      cases hid
      exact ⟨hlawful.named, hlawful.notReserved⟩
    · intro name hname
      obtain ⟨c, hc, hcolumn⟩ := List.mem_map.mp hname
      rw [← hcolumn]
      exact hlawful.columnsNamed c hc

theorem config_written {c : Context}
    (hc : ∀ e ∈ c.entries, isName e.1 = true ∧ e.2.Lawful none) :
    WrittenFor r ⟨none, c.keys⟩ (configLines r c) := by
  refine ⟨_, config_lines_eq c, ?_⟩
  intro l hl
  exact .inr ⟨l, (assignment_lines_kind hc _ l hl).1⟩

theorem section_written {s : Section} (hs : s.Lawful) (hgap : 2 ≤ o.columnGap) :
    WrittenFor r ⟨some s.id, s.columns.map Column.name⟩ (sectionLines r o s) := by
  refine ⟨_, section_lines_eq s, ?_⟩
  intro l hl
  exact .inr ⟨l, (section_lines_kind hs hgap l hl).1⟩

/-- An empty line between two blocks stands under the head of the first. -/
theorem headed_stack {ns : List BlockNames} {blocks : List (List (List Char))}
    (h : List.Forall₂ (WrittenFor r) ns blocks) : Headed r ns (stack [[]] blocks) := by
  induction h with
  | nil => exact .nil
  | @cons n block ns blocks first rest ih =>
    cases rest with
    | nil =>
      have hheaded := Headed.cons first .nil
      rwa [List.append_nil, ← stack_single [[]] block] at hheaded
    | cons second rest =>
      obtain ⟨under, hblock, hunder⟩ := first
      rw [stack_cons_cons]
      refine .cons ⟨under ++ [[]], by rw [hblock, List.append_assoc], ?_⟩ ih
      intro l hl
      rcases List.mem_append.mp hl with hl | hl
      · exact hunder l hl
      · rw [List.mem_singleton.mp hl]
        exact .inr ⟨[], rfl⟩

theorem document_headed {d : Document} (hd : d.Lawful) :
    Headed r (blockNames d) (documentLines r o d) := by
  have hgap : 2 ≤ ({ o with columnGap := max o.columnGap minColumnGap } : Options).columnGap :=
    Nat.le_max_right _ _
  apply headed_stack
  apply List.rel_append
  · split
    · exact .nil
    · exact .cons (config_written hd.context) .nil
  · rw [List.forall₂_map_left_iff, List.forall₂_map_right_iff, List.forall₂_same]
    intro s hs
    exact section_written (hd.sections s hs) hgap

end Documents

/-- Lines are read as blocks that lead back to names, one block for each. -/
def RecalledFrom (r : Registry) (ns : List BlockNames) (lines : List (List Char)) : Prop :=
  ∃ blocks, blocksOf (numbered lines) = .ok blocks ∧ List.Forall₂ (Recalls r) ns blocks

theorem Headed.recalled {r : Registry} {ns : List BlockNames} {lines : List (List Char)}
    (h : Headed r ns lines) (hns : ∀ n ∈ ns, n.Lawful) : RecalledFrom r ns lines := by
  obtain ⟨blocks, hcut, hrecalls⟩ := h.cut hns (numbered_from_texts 1 lines)
  refine ⟨blocks, ?_, hrecalls⟩
  rw [blocksOf, numbered_eq, hcut]
  rfl

/-- Under every registry the names of a block are shown as different names, and its id as a name other than
the reserved one. Blocks lead back to their names by the legends that are read, even where a heading is shown
like the id of another section, and so do the blocks of every document's sheet. -/
theorem legend_inverts_expansion (r : Registry) :
    (∀ n : BlockNames, n.Lawful →
      ((showNames r n.names).map ShownName.text).Nodup ∧
      (∀ s ∈ showNames r n.names, isName s.text = true) ∧
      ∀ id ∈ n.id?, isName (showHeading r id).text = true ∧ (showHeading r id).text ≠ reservedId) ∧
    (∀ ns ls, (∀ n ∈ ns, BlockNames.Lawful n) → Headed r ns ls → RecalledFrom r ns ls) ∧
    ∀ o d, d.isValid = true →
      ∃ text, write r o d = .ok text ∧ RecalledFrom r (blockNames d) (lines text.toList) := by
  refine ⟨?_, ?_, ?_⟩
  · intro n hn
    refine ⟨hn.shown_differ, hn.shown, ?_⟩
    intro id hid
    obtain ⟨hname, hreserved⟩ := hn.idNamed id hid
    exact ⟨show_heading_is_name hname, show_heading_not_reserved hreserved⟩
  · intro ns ls hns hheaded
    exact hheaded.recalled hns
  · intro o d hd
    have hlawful := Document.is_valid_iff.mp hd
    refine ⟨_, write_ok hd, ?_⟩
    rw [String.toList_ofList, lines_text (document_lines_no_control hlawful)]
    exact (document_headed hlawful).recalled (block_names_lawful hlawful)

section Example

/-- Two sections under one heading: the id of the first is shown in full, which is how that of the second
is spelled. In the first, `nm` cannot be shown in full beside `name`. -/
def forges : List BlockNames :=
  [⟨some "f", ["nm", "name", "v"]⟩, ⟨some "forge", ["nm"]⟩]

def forgeLines : List (List Char) :=
  ["[forge]", "# expanded: [forge], version", "[forge]", "# expanded: name"].map String.toList

theorem forges_lawful : ∀ n ∈ forges, n.Lawful := by
  intro n hn
  simp only [forges, List.mem_cons, List.not_mem_nil, or_false] at hn
  rcases hn with rfl | rfl
  all_goals exact ⟨by decide, by decide, by decide⟩

theorem forges_headed : Headed .standard forges forgeLines := by
  have hfirst : WrittenFor .standard ⟨some "f", ["nm", "name", "v"]⟩ (forgeLines.take 2) :=
    ⟨[], by decide, by simp⟩
  have hsecond : WrittenFor .standard ⟨some "forge", ["nm"]⟩ (forgeLines.drop 2) :=
    ⟨[], by decide, by simp⟩
  exact .cons hfirst (.cons hsecond .nil)

theorem legend_inverts_expansion_forges :
    (∀ n ∈ forges, n.Lawful) ∧ Headed .standard forges forgeLines ∧ shelf.isValid = true ∧
      (∀ n ∈ forges, ((showNames .standard n.names).map ShownName.text).Nodup ∧
        ∀ id ∈ n.id?, (showHeading .standard id).text ≠ reservedId) ∧
      RecalledFrom .standard forges forgeLines ∧
      ∃ text, write clashingNames ⟨0, 0⟩ shelf = .ok text ∧
        RecalledFrom clashingNames (blockNames shelf) (lines text.toList) := by
  obtain ⟨hshown, hrecalled, -⟩ := legend_inverts_expansion .standard
  obtain ⟨-, -, hwritten⟩ := legend_inverts_expansion clashingNames
  have hvalid : shelf.isValid = true := by decide
  refine ⟨forges_lawful, forges_headed, hvalid, ?_, ?_, hwritten ⟨0, 0⟩ shelf hvalid⟩
  · intro n hn
    obtain ⟨hdiffer, -, hid⟩ := hshown n (forges_lawful n hn)
    exact ⟨hdiffer, fun id h => (hid id h).2⟩
  · exact hrecalled forges forgeLines forges_lawful forges_headed

end Example
end DocForms.Sheet
