import DocForms.Proofs.Document.Fields
import DocForms.Proofs.Document.Parts
import DocForms.Proofs.Outcomes
import DocForms.Sheet.Reader

namespace DocForms

namespace Layout

theorem read_cells_fails (l : Line) : FailsOnly Misread (readCells l) :=
  .map_error _ fun _ => trivial

theorem read_under_fails (header : List (List Char)) (l : Line) :
    FailsOnly Misread (readUnder header l) := by
  refine FailsOnly.bind (read_cells_fails l) fun cells => ?_
  split
  · exact .ok _
  · exact .error trivial

theorem read_group_fails (p : Paragraph) : FailsOnly Misread (readGroup p) :=
  FailsOnly.bind (read_cells_fails _) fun header =>
    FailsOnly.bind (.mapM (read_under_fails header) _) fun _ => .ok _

theorem add_group_fails (t : Table) (p : Paragraph) : FailsOnly Misread (addGroup t p) := by
  refine FailsOnly.bind (read_cells_fails _) fun header => ?_
  split
  · exact FailsOnly.bind (.mapM (read_under_fails header) _) fun _ => .ok _
  · exact .error trivial

theorem read_record_fails (r : Record) : FailsOnly Misread (readRecord r) := by
  cases r with
  | nil => exact .ok _
  | cons p ps => exact FailsOnly.bind (read_group_fails p) fun t => .foldlM add_group_fails ps t

theorem add_record_fails (t : Table) (r : Record) : FailsOnly Misread (addRecord t r) := by
  refine FailsOnly.bind (read_record_fails r) fun below => ?_
  split
  · exact .ok _
  · exact .error trivial

theorem parse_fails (ls : List Line) : FailsOnly Misread (parse ls) := by
  rw [parse]
  split
  · exact .ok _
  · exact FailsOnly.bind (read_record_fails _) fun t => .foldlM add_record_fails _ t

end Layout

namespace Sheet
open Text Layout

section Failures
variable (r : Registry)

theorem blocks_fail (ls : List Line) : FailsOnly Misread (blocksOf ls) := by
  rw [blocksOf]
  split
  · exact .error trivial
  · exact .ok _

theorem add_assignment_fails (legend : List (List Char)) (c : Context) (l : Line) :
    FailsOnly Misread (addAssignment r legend c l) := by
  rw [addAssignment]
  split
  · exact .ok _
  · split
    · dsimp only
      split
      · exact .error trivial
      · split
        · exact .error trivial
        · exact FailsOnly.bind (.map_error _ fun _ => trivial) fun _ => .ok _
    · exact .error trivial

theorem read_section_fails (b : Block) (id : String) : FailsOnly Misread (readSection r b id) := by
  refine FailsOnly.bind (parse_fails b.body) fun table => ?_
  dsimp only
  split
  · exact .error trivial
  · refine FailsOnly.bind (.map_error _ fun _ => trivial) fun columns => ?_
    refine FailsOnly.bind (.mapM (fun row => .mapM (fun cell => ?_) _) _) fun rows => .ok _
    exact .map_error _ fun _ => trivial

theorem add_block_fails (d : Draft) (b : Block) : FailsOnly Misread (d.addBlock r b) := by
  rw [Draft.addBlock]
  split
  · rw [Draft.addConfig]
    split
    · exact .error trivial
    · exact FailsOnly.bind (.foldlM (add_assignment_fails r b.legend) _ _) fun _ => .ok _
  · rw [Draft.addSection]
    split
    · exact .error trivial
    · exact FailsOnly.bind (read_section_fails r b _) fun _ => .ok _

end Failures

/-- The headings among lines, each with its number. -/
def headingLines (ls : List Line) : List (Nat × List Char) :=
  ls.filterMap fun l =>
    match LineKind.of l.2 with
    | .heading name => some (l.1, name)
    | _ => none

/-- Each block starts at a heading. -/
theorem cut_headings (ls : List Line) :
    (cut ls).blocks.map (fun b => (b.line, b.name)) = headingLines ls := by
  induction ls with
  | nil => rfl
  | cons l ls ih =>
    have hcut : cut (l :: ls) = (cut ls).addLine (l.1, LineKind.of l.2) := rfl
    rw [hcut, Cut.addLine, headingLines, List.filterMap_cons]
    cases hkind : LineKind.of l.2 with
    | heading name => exact congrArg (_ :: ·) ih
    | _ => exact ih

theorem blocks_headings {ls : List Line} {blocks : List Block} (h : blocksOf ls = .ok blocks) :
    blocks.map (fun b => (b.line, b.name)) = headingLines ls := by
  rw [blocksOf] at h
  split at h
  · cases h
  · cases h
    exact cut_headings ls

/-- The headings of the sections among blocks, each with the id that it means. -/
def headings (r : Registry) (blocks : List Block) : List (Nat × String) :=
  (blocks.filter (·.name ≠ reservedId.toList)).map fun b => (b.line, headingMeant r b.legend b.name)

/-- The line of the heading of the context. -/
def configLine? (blocks : List Block) : Option Nat :=
  (blocks.find? (·.name = reservedId.toList)).map Block.line

namespace Draft

def document (d : Draft) : Document :=
  ⟨d.context, d.placed.map Prod.snd⟩

/-- What a draft keeps of the blocks that were read. -/
structure Shows (r : Registry) (seen : List Block) (d : Draft) : Prop where
  headings : d.placed.map (fun p => (p.1, p.2.id)) = headings r seen
  differ : (d.placed.map (·.2.id)).Nodup
  config : d.configLine = configLine? seen
  keys : ∀ key ∈ d.context.keys, isName key = true ∧ d.configLine.isSome = true

end Draft

section Steps
variable {r : Registry} {seen : List Block} {b : Block} {d d' : Draft}

theorem add_assignment_keys {legend : List (List Char)} {c c' : Context} {l : Line}
    (hc : ∀ key ∈ c.keys, isName key = true) (h : addAssignment r legend c l = .ok c') :
    ∀ key ∈ c'.keys, isName key = true := by
  rw [addAssignment] at h
  split at h
  · cases h
    exact hc
  · split at h
    · dsimp only at h
      split at h
      · cases h
      · rename_i hname
        split at h
        · cases h
        · obtain ⟨v, -, hinsert⟩ := bind_eq_ok.mp h
          cases hinsert
          intro key hkey
          rcases Fields.mem_insert_keys hkey with hkey | rfl
          · exact hc key hkey
          · simpa using hname
    · cases h

theorem read_section_id {id : String} {s : Section} (h : readSection r b id = .ok s) : s.id = id := by
  obtain ⟨table, -, htable⟩ := bind_eq_ok.mp h
  dsimp only at htable
  split at htable
  · cases htable
  · obtain ⟨columns, -, hcolumns⟩ := bind_eq_ok.mp htable
    obtain ⟨rows, -, hrows⟩ := bind_eq_ok.mp hcolumns
    cases hrows
    rfl

theorem headings_append (r : Registry) (seen : List Block) (b : Block) :
    headings r (seen ++ [b]) = headings r seen ++
      if b.name = reservedId.toList then [] else [(b.line, headingMeant r b.legend b.name)] := by
  rw [headings, List.filter_append, List.map_append]
  by_cases hname : b.name = reservedId.toList <;> simp [headings, hname]

theorem config_line_append (seen : List Block) (b : Block) :
    configLine? (seen ++ [b]) =
      (configLine? seen <|> if b.name = reservedId.toList then some b.line else none) := by
  rw [configLine?, List.find?_append]
  cases hfound : seen.find? (·.name = reservedId.toList) with
  | some c => simp [configLine?, hfound]
  | none => by_cases hname : b.name = reservedId.toList <;> simp [configLine?, hfound, hname]

theorem add_config_shows (h : d.Shows r seen) (hname : b.name = reservedId.toList)
    (hadd : d.addConfig r b = .ok d') : d'.Shows r (seen ++ [b]) := by
  rw [Draft.addConfig] at hadd
  split at hadd
  · cases hadd
  · rename_i hnone
    obtain ⟨context, hfold, hd⟩ := bind_eq_ok.mp hadd
    cases hd
    have hkeys := foldlM_keeps (P := fun c : Context => ∀ key ∈ c.keys, isName key = true)
      (fun c l c' hc hl => add_assignment_keys hc hl) (fun key hkey => (h.keys key hkey).1) hfold
    constructor
    case headings => rw [headings_append, if_pos hname, List.append_nil, h.headings]
    case differ => exact h.differ
    case config =>
      have hfirst : configLine? seen = none := by
        rw [← h.config]
        simpa using hnone
      rw [config_line_append, hfirst, if_pos hname]
      rfl
    case keys => exact fun key hkey => ⟨hkeys key hkey, rfl⟩

theorem add_section_shows (h : d.Shows r seen) (hname : b.name ≠ reservedId.toList)
    (hadd : d.addSection r b = .ok d') : d'.Shows r (seen ++ [b]) := by
  rw [Draft.addSection] at hadd
  split at hadd
  · cases hadd
  · rename_i hnew
    obtain ⟨s, hread, hd⟩ := bind_eq_ok.mp hadd
    cases hd
    have hid := read_section_id hread
    constructor
    case headings =>
      rw [headings_append, if_neg hname, List.map_append, h.headings, ← hid]
      rfl
    case differ =>
      rw [List.map_append, List.nodup_append]
      refine ⟨h.differ, by simp, fun id hmem other hother heq => hnew ?_⟩
      obtain ⟨p, hp, rfl⟩ := List.mem_map.mp hmem
      rw [List.mem_singleton.mp hother] at heq
      exact List.any_eq_true.mpr ⟨p, hp, beq_iff_eq.mpr (heq.trans hid)⟩
    case config =>
      rw [config_line_append, if_neg hname, ← h.config]
      simp
    case keys => exact h.keys

theorem add_blocks_shows {blocks : List Block} (h : blocks.foldlM (Draft.addBlock r) {} = .ok d) :
    d.Shows r blocks := by
  have hstart : Draft.Shows r [] {} := ⟨rfl, List.nodup_nil, rfl, nofun⟩
  refine foldlM_follows (R := Draft.Shows r) [] (fun seen b _ d d' hd hadd => ?_) hstart h
  rw [Draft.addBlock] at hadd
  split at hadd
  · exact add_config_shows hd ‹_› hadd
  · exact add_section_shows hd ‹_› hadd

end Steps

/-- The line that is blamed for a violation: the heading of the context, if a field raises it; else the
only heading of the section that raises it. A violation about a name does not tell its section, so that it
is not reported where it is raised, but at the heading of the context or, without one, at the first
line. -/
def Blamed (r : Registry) (blocks : List Block) (n : Nat) (x : Violation) : Part → Prop
  | .field _ => configLine? blocks = some n
  | .table id => (¬x.OfName → ∀ m, (m, id) ∈ headings r blocks ↔ m = n) ∧
    (x.OfName → n = (configLine? blocks).getD 1)

section Blame
variable {r : Registry} {blocks : List Block} {d : Draft} {x : Violation}

theorem blamed_field (hd : d.Shows r blocks) {key : String} (hkey : key ∈ d.context.keys)
    (hx : x.section? = none) : Blamed r blocks (d.lineOf x) x (.field key) := by
  obtain ⟨-, hsome⟩ := hd.keys key hkey
  obtain ⟨n, hline⟩ := Option.isSome_iff_exists.mp hsome
  rw [Blamed, ← hd.config, Draft.lineOf, hx, hline]
  rfl

theorem blamed_table (hd : d.Shows r blocks) {p : Nat × Section} (hp : p ∈ d.placed)
    (hx : x.section? = some p.2.id ∨ x.OfName) : Blamed r blocks (d.lineOf x) x (.table p.2.id) := by
  constructor
  · intro hname m
    obtain ⟨hfound, honly⟩ := find_placed Prod.fst hd.differ hp
    rw [Draft.lineOf, hx.resolve_right hname, Option.bind_some, hfound, ← hd.headings]
    exact honly m
  · intro hname
    cases x with
    | invalidName name =>
      rw [← hd.config]
      rfl
    | _ => cases hname

end Blame

/-- A line of a sheet is blamed for the first violation of the document that was read from it. -/
def BlamesFirst (r : Registry) (text : String) (n : Nat) (x : Violation) : Prop :=
  ∃ blocks d part, blocksOf (numbered (lines text.toList)) = .ok blocks ∧
    blocks.map (fun b => (b.line, b.name)) = headingLines (numbered (lines text.toList)) ∧
    blocks.foldlM (Draft.addBlock r) {} = .ok d ∧ d.document.raised.head? = some (part, x) ∧
    Blamed r blocks n x part

/-- A sheet that breaks a rule of documents is refused at a heading: that of the section that raises the
first violation, or that of the context if a field raises it or if it is about the name of a column. -/
theorem violation_blamed {r : Registry} {text : String} {n : Nat} {x : Violation}
    (h : read r text = .error (.parse n (.violation x))) : BlamesFirst r text n x := by
  rw [read, readLines, bind_eq_error] at h
  rcases h with hmisread | ⟨blocks, hblocks, hread⟩
  · exact absurd hmisread fun herror => blocks_fail _ _ herror
  · rw [bind_eq_error] at hread
    rcases hread with hmisread | ⟨d, hfold, hfinish⟩
    · exact absurd hmisread fun herror => FailsOnly.foldlM (add_block_fails r) _ _ _ herror
    · have hd := add_blocks_shows hfold
      obtain ⟨rfl, rest, hviolations⟩ := Document.check_read_error hfinish
      obtain ⟨part, hpart, hraised⟩ :=
        Document.first_raised (d := d.document) (fun key hkey => (hd.keys key hkey).1) hviolations
      refine ⟨blocks, d, part, hblocks, blocks_headings hblocks, hfold, hpart, ?_⟩
      rcases hraised with ⟨key, hkey, rfl, hx⟩ | ⟨s, hs, rfl, hfirst⟩
      · exact blamed_field hd hkey hx
      · obtain ⟨p, hp, rfl⟩ := List.mem_map.mp hs
        exact blamed_table hd hp hfirst.section_eq

end Sheet
end DocForms
