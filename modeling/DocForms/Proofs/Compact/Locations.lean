import DocForms.Proofs.Compact.Steps
import DocForms.Proofs.Document.Fields
import DocForms.Proofs.Text.Lines

namespace DocForms.Compact
open Text

/-- What follows `#c:` in a context line. -/
def contextFields? (l : List Char) : Option (List Char) :=
  match LineKind.of l with
  | .context fields => some fields
  | _ => none

/-- The id in the heading of a section. -/
def headingId? (l : List Char) : Option String :=
  match LineKind.of l with
  | .heading heading => (splitOnce '(' heading).map fun p => String.ofList p.1
  | _ => none

/-- The key in an entry of a context line. -/
def EntryKey (entry : List Char) (key : String) : Prop :=
  ∃ raw, splitOnce '|' entry = some (key.toList, raw)

/-- A context line that holds the field with the given key. -/
def HoldsField (l : List Char) (key : String) : Prop :=
  ∃ fields entry, contextFields? l = some fields ∧ ContextEntry fields entry ∧ EntryKey entry key

/-- The headings among lines, each with its number. -/
def headings (ls : List (Nat × List Char)) : List (Nat × String) :=
  ls.filterMap fun l => (headingId? l.2).map (l.1, ·)

/-- The number of the first context line. -/
def firstContext? (ls : List (Nat × List Char)) : Option Nat :=
  (ls.find? fun l => (contextFields? l.2).isSome).map Prod.fst

/-- The sections of a draft are those of the headings that were read. -/
structure Draft.ShowsHeadings (seen : List (Nat × List Char)) (d : Draft) : Prop where
  headings : d.placed.map (fun p => (p.line, p.table.id)) = headings seen
  differ : (d.placed.map (·.table.id)).Nodup
  tables : ∀ p ∈ d.placed, isName p.table.id = true ∧ ∀ c ∈ p.table.columns, isName c.name = true

/-- The fields of a draft are those of the context lines that were read, each of one line. -/
structure Draft.ShowsContext (seen : List (Nat × List Char)) (d : Draft) : Prop where
  firstContext : d.contextLine = firstContext? seen
  named : ∀ key ∈ d.context.keys, isName key = true
  fields : ∀ key, key ∈ d.context.keys ↔ ∃ l ∈ seen, HoldsField l.2 key
  once : ∀ key, ∀ l ∈ seen, ∀ l' ∈ seen, HoldsField l.2 key → HoldsField l'.2 key → l = l'

/-- What a draft keeps of the lines that were read: all headings, but of the context lines only the
first. -/
structure Draft.Shows (seen : List (Nat × List Char)) (d : Draft) : Prop extends
  Draft.ShowsHeadings seen d, Draft.ShowsContext seen d

theorem close_placed (d : Draft) : d.close.placed = d.placed := by
  simp [Draft.close, Draft.placed]

section Steps
variable {seen : List (Nat × List Char)} {line : Nat × List Char} {d d' : Draft}

theorem headings_append (seen : List (Nat × List Char)) (line : Nat × List Char) :
    headings (seen ++ [line]) = headings seen ++ ((headingId? line.2).map (line.1, ·)).toList := by
  rw [headings, List.filterMap_append, List.filterMap_cons, List.filterMap_nil]
  cases headingId? line.2 <;> rfl

theorem first_context_append (seen : List (Nat × List Char)) (line : Nat × List Char) :
    firstContext? (seen ++ [line]) =
      (firstContext? seen <|> if (contextFields? line.2).isSome then some line.1 else none) := by
  rw [firstContext?, List.find?_append]
  cases hfound : seen.find? fun l => (contextFields? l.2).isSome with
  | some l => simp [firstContext?, hfound]
  | none => cases hline : (contextFields? line.2).isSome <;> simp [firstContext?, hfound, hline]

theorem HoldsField.context {l : List Char} {key : String} (h : HoldsField l key) :
    (contextFields? l).isSome = true := by
  obtain ⟨fields, -, hfields, -⟩ := h
  rw [hfields]
  rfl

/-- A line that is not of the context holds no field. -/
theorem holds_field_append_skip (hcontext : contextFields? line.2 = none) {key : String} :
    ∀ l ∈ seen ++ [line], HoldsField l.2 key → l ∈ seen := by
  intro l hl hfield
  rcases List.mem_append.mp hl with hl | hl
  · exact hl
  · rw [List.mem_singleton.mp hl] at hfield
    have hsome := hfield.context
    rw [hcontext] at hsome
    cases hsome

theorem Draft.ShowsContext.skip (h : d.ShowsContext seen) (hcontext : contextFields? line.2 = none)
    (hline : d'.contextLine = d.contextLine) (hfields : d'.context = d.context) :
    d'.ShowsContext (seen ++ [line]) := by
  constructor
  case firstContext => rw [hline, h.firstContext, first_context_append, hcontext]; simp
  case named => rw [hfields]; exact h.named
  case fields =>
    intro key
    rw [hfields, h.fields]
    refine ⟨fun ⟨l, hl, hfield⟩ => ?_, fun ⟨l, hl, hfield⟩ => ?_⟩
    · exact ⟨l, List.mem_append_left _ hl, hfield⟩
    · exact ⟨l, holds_field_append_skip hcontext l hl hfield, hfield⟩
  case once =>
    intro key l hl l' hl' hfield hfield'
    exact h.once key l (holds_field_append_skip hcontext l hl hfield)
      l' (holds_field_append_skip hcontext l' hl' hfield') hfield hfield'

theorem Draft.ShowsHeadings.skip (h : d.ShowsHeadings seen) (hheading : headingId? line.2 = none)
    (hplaced : d'.placed = d.placed) : d'.ShowsHeadings (seen ++ [line]) := by
  constructor
  case headings => rw [hplaced, h.headings, headings_append, hheading]; simp
  case differ => rw [hplaced]; exact h.differ
  case tables => rw [hplaced]; exact h.tables

/-- A row does not change where its section stands and what its columns are. -/
theorem add_row_shows {text : List Char} (h : d.ShowsHeadings seen)
    (hrow : d.addRow line.1 text = .ok d') (hheading : headingId? line.2 = none) :
    d'.ShowsHeadings (seen ++ [line]) := by
  have hskip : d.ShowsHeadings (seen ++ [line]) := h.skip hheading rfl
  obtain ⟨p, rows, hcurrent, rfl⟩ := add_row_ok hrow
  constructor
  case headings => simpa [Draft.placed, hcurrent] using hskip.headings
  case differ => simpa [Draft.placed, hcurrent] using hskip.differ
  case tables =>
    intro q hq
    rcases List.mem_append.mp hq with hclosed | hopen
    · exact hskip.tables q (List.mem_append_left _ hclosed)
    · rw [List.mem_singleton.mp hopen]
      exact hskip.tables p (by simp [Draft.placed, hcurrent])

theorem open_section_shows {heading : List Char} (h : d.ShowsHeadings seen)
    (hopen : d.close.openSection line.1 heading = .ok d')
    (hheading : headingId? line.2 = (splitOnce '(' heading).map fun p => String.ofList p.1) :
    d'.ShowsHeadings (seen ++ [line]) := by
  obtain ⟨id, rest, columns, hsplit, hid, hnew, hcolumns, rfl⟩ := open_section_ok hopen
  have hplaced : ({ d.close with current := some ⟨line.1, ⟨String.ofList id, columns, []⟩⟩ } :
      Draft).placed = d.placed ++ [⟨line.1, ⟨String.ofList id, columns, []⟩⟩] := by
    simp [Draft.placed, Draft.close]
  rw [close_placed] at hnew
  constructor
  case headings =>
    rw [hplaced, List.map_append, h.headings, headings_append, hheading, hsplit]
    rfl
  case differ =>
    rw [hplaced, List.map_append, List.nodup_append]
    refine ⟨h.differ, by simp, fun id' hmem other hother heq => ?_⟩
    obtain ⟨p, hp, rfl⟩ := List.mem_map.mp hmem
    rw [List.mem_singleton.mp hother] at heq
    exact List.any_eq_false.mp hnew p hp (beq_iff_eq.mpr heq)
  case tables =>
    rw [hplaced]
    intro q hq
    rcases List.mem_append.mp hq with hold | hopened
    · exact h.tables q hold
    · rw [List.mem_singleton.mp hopened]
      exact ⟨by simpa [isName] using hid, hcolumns⟩

/-- What a draft takes in from the entries of a context line. -/
structure Draft.Enters (d : Draft) (entries : List (List Char)) (d' : Draft) : Prop where
  placed : d'.placed = d.placed
  contextLine : d'.contextLine = d.contextLine
  keys : ∀ key, key ∈ d'.context.keys ↔
    key ∈ d.context.keys ∨ ∃ entry ∈ entries, EntryKey entry key
  fresh : ∀ entry ∈ entries, ∀ key, EntryKey entry key → isName key = true ∧ key ∉ d.context.keys

theorem entry_key_iff {entry key raw : List Char} (hsplit : splitOnce '|' entry = some (key, raw))
    {k : String} : EntryKey entry k ↔ k = String.ofList key := by
  rw [EntryKey, hsplit]
  constructor
  · rintro ⟨raw', heq⟩
    cases heq
    exact (String.ofList_toList).symm
  · rintro rfl
    exact ⟨raw, by rw [String.toList_ofList]⟩

theorem add_context_entry_enters {n : Nat} {entry : List Char} {before : List (List Char)} {e e' : Draft}
    (h : d.Enters before e) (hentered : e.addContextEntry n entry = .ok e') :
    d.Enters (before ++ [entry]) e' := by
  obtain ⟨key, raw, v, hsplit, hname, hnew, rfl⟩ := add_context_entry_ok hentered
  have hfresh : String.ofList key ∉ e.context.keys := Fields.not_mem_of_contains hnew
  constructor
  case placed => exact h.placed
  case contextLine => exact h.contextLine
  case keys =>
    intro k
    have hkeys : (e.context.insert (String.ofList key) v).keys =
        e.context.keys ++ [String.ofList key] := by
      rw [Fields.keys, Fields.insert_entries hfresh, List.map_append]
      rfl
    rw [hkeys, List.mem_append, h.keys, List.mem_singleton, ← entry_key_iff hsplit, or_assoc]
    simp [or_and_right, exists_or]
  case fresh =>
    intro entry' hmem k hk
    rcases List.mem_append.mp hmem with hmem | hmem
    · exact h.fresh entry' hmem k hk
    · rw [List.mem_singleton.mp hmem, entry_key_iff hsplit] at hk
      subst hk
      exact ⟨by simpa [isName] using hname, fun hold => hfresh ((h.keys _).mpr (.inl hold))⟩

/-- A context line adds the fields it holds, and none of them was there before. -/
theorem add_context_enters {n : Nat} {fields : List Char} (h : d.addContext n fields = .ok d') :
    ∃ entries : List (List Char), (∀ entry, entry ∈ entries ↔ ContextEntry fields entry) ∧
      ({ d with contextLine := d.contextLine <|> some n } : Draft).Enters entries d' := by
  obtain ⟨entries, hentries, hfold⟩ := add_context_ok h
  refine ⟨entries, hentries, ?_⟩
  refine foldlM_follows (R := Draft.Enters _) [] (fun _ _ _ _ _ => add_context_entry_enters) ?_ hfold
  exact ⟨rfl, rfl, by simp, nofun⟩

theorem add_context_shows {fields : List Char} (h : d.Shows seen)
    (hadd : d.close.addContext line.1 fields = .ok d') (hheading : headingId? line.2 = none)
    (hcontext : contextFields? line.2 = some fields) : d'.Shows (seen ++ [line]) := by
  obtain ⟨entries, hentries, henters⟩ := add_context_enters hadd
  have hholds (key : String) : HoldsField line.2 key ↔ ∃ entry ∈ entries, EntryKey entry key := by
    simp [HoldsField, hcontext, hentries]
  have hfresh (key : String) (hfield : HoldsField line.2 key) :
      isName key = true ∧ key ∉ d.context.keys := by
    obtain ⟨entry, hmem, hkey⟩ := (hholds key).mp hfield
    exact henters.fresh entry hmem key hkey
  have hkeys (key : String) : key ∈ d'.context.keys ↔ key ∈ d.context.keys ∨ HoldsField line.2 key := by
    rw [hholds]
    exact henters.keys key
  refine ⟨h.toShowsHeadings.skip hheading (henters.placed.trans (close_placed d)), ?_⟩
  constructor
  case firstContext =>
    rw [henters.contextLine, first_context_append, hcontext, ← h.firstContext]
    rfl
  case named =>
    intro key hkey
    exact ((hkeys key).mp hkey).elim (h.named key) fun hfield => (hfresh key hfield).1
  case fields =>
    intro key
    rw [hkeys, h.fields]
    simp [or_and_right, exists_or]
  case once =>
    -- A field of this line is not among those of the lines before it.
    have hnot {key : String} {l : Nat × List Char} (hl : l ∈ seen) (hfield : HoldsField l.2 key) :
        ¬ HoldsField line.2 key :=
      fun hline => (hfresh key hline).2 ((h.fields key).mpr ⟨l, hl, hfield⟩)
    intro key l hl l' hl' hfield hfield'
    rcases List.mem_append.mp hl with hl | hl <;> rcases List.mem_append.mp hl' with hl' | hl'
    · exact h.once key l hl l' hl' hfield hfield'
    · rw [List.mem_singleton.mp hl'] at hfield'
      exact absurd hfield' (hnot hl hfield)
    · rw [List.mem_singleton.mp hl] at hfield
      exact absurd hfield (hnot hl' hfield')
    · rw [List.mem_singleton.mp hl, List.mem_singleton.mp hl']

/-- A draft keeps what the next line shows. -/
theorem add_line_shows (h : d.Shows seen) (hline : d.addLine line = .ok d') :
    d'.Shows (seen ++ [line]) := by
  rw [add_line_eq] at hline
  have hheadings := h.toShowsHeadings
  have hcontext := h.toShowsContext
  cases hkind : LineKind.of line.2 with
  | blank =>
    rw [hkind] at hline
    cases hline
    exact ⟨hheadings.skip (by rw [headingId?, hkind]) rfl,
      hcontext.skip (by rw [contextFields?, hkind]) rfl rfl⟩
  | context fields =>
    rw [hkind] at hline
    exact add_context_shows h hline (by rw [headingId?, hkind]) (by rw [contextFields?, hkind])
  | reference reference =>
    rw [hkind] at hline
    obtain ⟨key, target, -, rfl⟩ := add_reference_ok hline
    exact ⟨hheadings.skip (by rw [headingId?, hkind]) (close_placed d),
      hcontext.skip (by rw [contextFields?, hkind]) rfl rfl⟩
  | heading heading =>
    rw [hkind] at hline
    refine ⟨open_section_shows hheadings hline (by rw [headingId?, hkind]), ?_⟩
    obtain ⟨id, rest, columns, -, -, -, -, rfl⟩ := open_section_ok hline
    exact hcontext.skip (by rw [contextFields?, hkind]) rfl rfl
  | row text =>
    rw [hkind] at hline
    refine ⟨add_row_shows hheadings hline (by rw [headingId?, hkind]), ?_⟩
    obtain ⟨p, rows, -, rfl⟩ := add_row_ok hline
    exact hcontext.skip (by rw [contextFields?, hkind]) rfl rfl

theorem add_lines_shows {ls : List (Nat × List Char)} (h : ls.foldlM Draft.addLine {} = .ok d) :
    d.Shows ls := by
  have hstart : Draft.Shows [] {} :=
    ⟨⟨rfl, List.nodup_nil, nofun⟩, ⟨rfl, nofun, fun _ => ⟨nofun, by simp⟩, nofun⟩⟩
  exact foldlM_follows (R := fun seen d => Draft.Shows seen d) []
    (fun _ _ _ _ _ hd hline => add_line_shows hd hline) hstart h

end Steps

/-- The line that is blamed for a violation: the only heading of the section that raises it; or the first
context line, which stands no later than the only line that holds the field. -/
def Blamed (ls : List (Nat × List Char)) (n : Nat) : Part → Prop
  | .table id => ∀ m, (m, id) ∈ headings ls ↔ m = n
  | .field key => firstContext? ls = some n ∧
      ∃ l ∈ ls, (∀ l' ∈ ls, HoldsField l'.2 key ↔ l' = l) ∧ n ≤ l.1

theorem numbered_ascending (ls : List (List Char)) : (numbered ls).Pairwise (·.1 < ·.1) := by
  have hnumbers : (numbered ls).map Prod.fst = List.range' 1 ls.length :=
    List.map_fst_zip (by simp)
  rw [← List.pairwise_map, hnumbers]
  exact List.pairwise_lt_range'

/-- No context line stands before the first. -/
theorem first_context_le {ls : List (Nat × List Char)} (hls : ls.Pairwise (·.1 < ·.1))
    {l : Nat × List Char} (hl : l ∈ ls) (hcontext : (contextFields? l.2).isSome = true) :
    ∃ n, firstContext? ls = some n ∧ n ≤ l.1 := by
  rw [firstContext?]
  cases hfound : ls.find? fun l => (contextFields? l.2).isSome with
  | none => exact absurd hcontext (List.find?_eq_none.mp hfound l hl)
  | some first =>
    refine ⟨first.1, rfl, ?_⟩
    obtain ⟨-, before, after, rfl, hbefore⟩ := List.find?_eq_some_iff_append.mp hfound
    rcases List.mem_append.mp hl with hl | hl
    · have hnot := hbefore l hl
      rw [hcontext] at hnot
      cases hnot
    · rcases List.mem_cons.mp hl with rfl | hl
      · exact Nat.le_refl _
      · exact Nat.le_of_lt ((List.pairwise_cons.mp (List.pairwise_append.mp hls).2.1).1 l hl)

section Blame
variable {ls : List (Nat × List Char)} {d : Draft} {x : Violation}

theorem blamed_field (hd : d.Shows ls) (hls : ls.Pairwise (·.1 < ·.1)) {key : String}
    (hkey : key ∈ d.context.keys) (hx : x.section? = none) : Blamed ls (d.lineOf x) (.field key) := by
  obtain ⟨l, hl, hfield⟩ := (hd.fields key).mp hkey
  have honly : ∀ l' ∈ ls, HoldsField l'.2 key ↔ l' = l := by
    intro l' hl'
    refine ⟨fun hfield' => hd.once key l' hl' l hl hfield' hfield, ?_⟩
    rintro rfl
    exact hfield
  obtain ⟨n, hfirst, hle⟩ := first_context_le hls hl hfield.context
  have hline : d.lineOf x = n := by
    rw [Draft.lineOf, hx, hd.firstContext, hfirst]
    rfl
  rw [hline]
  exact ⟨hfirst, l, hl, honly, hle⟩

theorem blamed_table (hd : d.Shows ls) {p : Placed} (hp : p ∈ d.placed)
    (hx : x.section? = some p.table.id) : Blamed ls (d.lineOf x) (.table p.table.id) := by
  obtain ⟨hfound, honly⟩ := find_placed Placed.line hd.differ hp
  intro m
  rw [Draft.lineOf, hx, Option.bind_some, hfound, ← hd.headings]
  exact honly m

end Blame

/-- A line of a text is blamed for the first violation of the document that was read from it. -/
def BlamesFirst (text : String) (n : Nat) (x : Violation) : Prop :=
  ∃ d part, (numbered (lines text.toList)).foldlM Draft.addLine {} = .ok d ∧
    d.document.raised.head? = some (part, x) ∧ Blamed (numbered (lines text.toList)) n part

/-- Compact text that breaks a rule of documents is refused at the heading of the section that raises the
first violation, or at the first context line if a field raises it. -/
theorem violation_blamed {text : String} {n : Nat} {x : Violation}
    (h : readWithReferences text = .error (.parse n (.violation x))) : BlamesFirst text n x := by
  rw [readWithReferences, readLines, bind_eq_error] at h
  rcases h with hmisread | ⟨d, hfold, hfinish⟩
  · exact absurd hmisread fun herror => FailsOnly.foldlM add_line_fails _ _ _ herror
  · have hd := add_lines_shows hfold
    rw [Draft.finish, bind_eq_error] at hfinish
    obtain hcheck | ⟨_, -, hdone⟩ := hfinish
    · obtain ⟨rfl, rest, hviolations⟩ := Document.check_read_error hcheck
      obtain ⟨part, hpart, hraised⟩ :=
        Document.first_raised hd.named hviolations
      refine ⟨d, part, hfold, hpart, ?_⟩
      rcases hraised with ⟨key, hkey, rfl, hx⟩ | ⟨s, hs, rfl, hfirst⟩
      · exact blamed_field hd (numbered_ascending _) hkey hx
      · obtain ⟨p, hp, rfl⟩ := List.mem_map.mp hs
        obtain ⟨hid, hcolumns⟩ := hd.tables p hp
        exact blamed_table hd hp (hfirst.section_eq.resolve_right (hfirst.not_of_name hid hcolumns))
    · cases hdone

end DocForms.Compact
