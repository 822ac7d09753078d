import DocForms.Proofs.Buffer.Tables

namespace DocForms.Buffer

theorem length_context (c : Context) : (writeContext c).table.length = c.size * contextEntrySize :=
  length_write_all (fun n e _ => length_write_entry n e) 0

theorem length_pieces {ss : List Section} (hss : ∀ s ∈ ss, s.Lawful)
    (heapSize columnsStart rowsStart : Nat) :
    (Piece.concat ((writeSections heapSize columnsStart rowsStart ss).map
      SectionPiece.entry)).table.length = ss.length * sectionEntrySize ∧
    columnsStart +
      ((writeSections heapSize columnsStart rowsStart ss).flatMap SectionPiece.columns).length =
        placeAfter columnsSize columnsStart ss ∧
    rowsStart + ((writeSections heapSize columnsStart rowsStart ss).flatMap SectionPiece.rows).length =
      placeAfter rowsSize rowsStart ss := by
  induction ss generalizing heapSize columnsStart rowsStart with
  | nil => simp [writeSections, Piece.concat, Piece.empty, placeAfter]
  | cons s rest ih =>
    obtain ⟨hentries, hcolumns, hrows⟩ := ih (fun t ht => hss t (List.mem_cons_of_mem _ ht))
      (heapSize + (writeSection heapSize columnsStart rowsStart s).entry.heap.length)
      (columnsStart + columnsSize s) (rowsStart + rowsSize s)
    have hentry := length_entry heapSize columnsStart rowsStart s
    have hcolumn : (writeSection heapSize columnsStart rowsStart s).columns.length = columnsSize s :=
      length_columns _ s
    have hrow : (writeSection heapSize columnsStart rowsStart s).rows.length = rowsSize s :=
      length_rows (hss s (by simp)) _
    simp only [writeSections, List.map_cons, Piece.concat, Piece.append, List.length_append,
      List.flatMap_cons, List.length_cons, hentries, hentry, hcolumn, hrow, Nat.succ_mul,
      ← Nat.add_assoc, hcolumns, hrows]
    exact ⟨Nat.add_comm _ _, rfl, rfl⟩

theorem places_ordered (d : Document) : headerSize ≤ sectionsPlace d ∧
    sectionsPlace d ≤ columnsPlace d ∧ columnsPlace d ≤ rowsPlace d ∧ rowsPlace d ≤ heapPlace d :=
  ⟨Nat.le_add_right _ _, Nat.le_add_right _ _, le_place_after _ _ _, le_place_after _ _ _⟩

theorem length_header (d : Document) : (header d).table.length = 24 := by
  simp [header, writeNumbers, length_bytes_of]

section
variable {d : Document} (hd : d.Lawful)
include hd

theorem length_entries :
    headerSize + (entries d).table.length = columnsPlace d := by
  obtain ⟨hentries, _⟩ := length_pieces hd.sections (writeContext d.context).heap.length
    (columnsPlace d) (rowsPlace d)
  rw [entries, sectionPieces, Piece.append, List.length_append, length_context, hentries,
    columnsPlace, sectionsPlace, Nat.add_assoc]

theorem columns_place :
    signedStart + ((header d).table ++ (entries d).table).length = columnsPlace d := by
  rw [List.length_append, length_header, ← length_entries hd, ← Nat.add_assoc]
  rfl

theorem rows_place : signedStart + ((header d).table ++ (entries d).table ++
    (sectionPieces d).flatMap SectionPiece.columns).length = rowsPlace d := by
  obtain ⟨_, hcolumns, _⟩ := length_pieces hd.sections (writeContext d.context).heap.length
    (columnsPlace d) (rowsPlace d)
  rw [List.length_append, ← Nat.add_assoc, columns_place hd, sectionPieces, hcolumns]
  rfl

theorem length_body : signedStart + (body d).table.length = heapPlace d := by
  obtain ⟨_, _, hrows⟩ := length_pieces hd.sections (writeContext d.context).heap.length
    (columnsPlace d) (rowsPlace d)
  rw [body, List.length_append, ← Nat.add_assoc, rows_place hd, sectionPieces, hrows]
  rfl

end

/-- What stands before the signed part of a buffer. -/
def preamble (f : Fingerprint) : Bytes :=
  magic ++ bytesOf 2 version ++ zeros 2 ++ f.bytes.toList

theorem length_preamble (f : Fingerprint) : (preamble f).length = signedStart := by
  simp [preamble, magic, length_bytes_of, zeros, signedStart]

/-- The view of a written buffer. -/
def writtenView (d : Document) (fingerprintOf : ByteArray → Fingerprint) : View where
  buffer := bufferOf d fingerprintOf
  fingerprint := fingerprintOf (arrayOf (signedPart d))
  contextStart := headerSize
  contextSize := d.context.size
  sectionsStart := sectionsPlace d
  sectionCount := d.sections.length
  heapStart := heapPlace d

section
variable {d : Document} {fingerprintOf : ByteArray → Fingerprint}

theorem buffer_eq : bufferOf d fingerprintOf =
    arrayOf (preamble (fingerprintOf (arrayOf (signedPart d))) ++ signedPart d) := rfl

theorem holds_preamble :
    Holds (bufferOf d fingerprintOf) 0 (preamble (fingerprintOf (arrayOf (signedPart d)))) :=
  holds_whole [] _ (signedPart d)

theorem holds_signed : Holds (bufferOf d fingerprintOf) signedStart (signedPart d) := by
  have h := holds_whole (preamble (fingerprintOf (arrayOf (signedPart d)))) (signedPart d) []
  rwa [List.append_nil, length_preamble] at h

theorem read_signed_part :
    sliceFrom? (bufferOf d fingerprintOf) signedStart = some (arrayOf (signedPart d)) := by
  have hroom := (@holds_signed d fingerprintOf).room
  have hpreamble := length_preamble (fingerprintOf (arrayOf (signedPart d)))
  have hdrop : (bufferOf d fingerprintOf).data.toList.drop signedStart = signedPart d := by
    rw [buffer_eq, array_of_to_list, List.drop_left' hpreamble]
  rw [sliceFrom?, if_pos (by omega)]
  refine congrArg some (ByteArray.ext (Array.toList_inj.mp ?_))
  rw [ByteArray.data_extract, Array.toList_extract, List.extract_eq_take_drop, hdrop,
    List.take_of_length_le (by omega), array_of_to_list]

theorem write_ok {b : ByteArray} :
    write d fingerprintOf = .ok b ↔
      d.isValid = true ∧ (∀ n ∈ (body d).stated, n.number ≤ n.limit) ∧
        bufferOf d fingerprintOf = b := by
  simp only [write, bind_eq_ok, Document.requireValid]
  constructor
  · rintro ⟨_, hvalid, hwrite⟩
    have hd : d.isValid = true := by
      by_cases hd : d.isValid = true
      · exact hd
      · simp [hd] at hvalid
    cases hfind : (body d).stated.find? fun n => !n.fits with
    | some n => simp [hfind] at hwrite
    | none =>
      simp only [hfind, Except.ok.injEq] at hwrite
      refine ⟨hd, fun n hn => ?_, hwrite⟩
      have hfits := List.find?_eq_none.mp hfind n hn
      simpa [Stated.fits] using hfits
  · rintro ⟨hd, hfits, hb⟩
    have hfind : ((body d).stated.find? fun n => !n.fits) = none := by
      apply List.find?_eq_none.mpr
      intro n hn
      simp [Stated.fits, hfits n hn]
    exact ⟨(), by rw [if_pos hd], by rw [hfind, hb]⟩

variable (hd : d.Lawful) (hfits : ∀ n ∈ (body d).stated, n.number ≤ n.limit)

theorem holds_header : Holds (bufferOf d fingerprintOf) signedStart (header d).table :=
  holds_signed.left.left.left.left

section
include hd

theorem columns_held : Holds (bufferOf d fingerprintOf) (columnsPlace d)
    ((sectionPieces d).flatMap SectionPiece.columns) := by
  have hcolumns := (@holds_signed d fingerprintOf).left.left.right
  rwa [columns_place hd] at hcolumns

theorem rows_held : Holds (bufferOf d fingerprintOf) (rowsPlace d)
    ((sectionPieces d).flatMap SectionPiece.rows) := by
  have hrows := (@holds_signed d fingerprintOf).left.right
  rwa [rows_place hd] at hrows

/-- The heap is the last part of a buffer. -/
theorem size_with_heap :
    (bufferOf d fingerprintOf).size = heapPlace d + (entries d).heap.length := by
  have hlength : (signedPart d).length = (body d).table.length + (entries d).heap.length :=
    List.length_append
  rw [← ByteArray.size_data, ← Array.length_toList, buffer_eq, array_of_to_list, List.length_append,
    length_preamble, hlength, ← length_body hd, Nat.add_assoc]

end

include hd hfits

theorem entries_placed :
    Placed (bufferOf d fingerprintOf) (heapPlace d) headerSize 0 (entries d) := by
  refine ⟨?_, ?_, fun n hn => hfits n (List.mem_append_left _ hn)⟩
  · have htable := (@holds_signed d fingerprintOf).left.left.left.right
    rwa [length_header] at htable
  · have hheap := (@holds_signed d fingerprintOf).right
    rwa [length_body hd] at hheap

theorem written_heads : (writtenView d fingerprintOf).Heads fingerprintOf := by
  have hbefore := @holds_preamble d fingerprintOf
  have hspace := @size_with_heap d fingerprintOf hd
  have hplace : headerSize ≤ heapPlace d := by
    obtain ⟨hsections, hcolumns, hrows, hheap⟩ := places_ordered d
    omega
  have hnumber : ∀ i n, [headerSize, d.context.size, sectionsPlace d, d.sections.length, heapPlace d,
      heapPlace d + (entries d).heap.length][i]? = some n →
      numberAt? (bufferOf d fingerprintOf) (signedStart + i * 4) 4 = some n := by
    intro i n hn
    refine read_number holds_header hn (hfits ⟨longLimit, n⟩ (List.mem_append_right _ ?_))
    exact List.mem_map_of_mem (List.mem_of_getElem? hn)
  refine
    { long := Nat.le_trans hplace (hspace ▸ Nat.le_add_right _ _)
      magic := hbefore.left.left.left.slice_bytes rfl
      version := hbefore.left.left.right.number (by decide)
      reserved := hbefore.left.right.slice_bytes rfl
      size := hspace ▸ hnumber 5 _ rfl
      fingerprint := ?_
      signed := by rw [writtenView, read_signed_part, Option.map_some]
      heapStart := hnumber 4 _ rfl
      heap := ⟨hplace, hspace ▸ Nat.le_add_right _ _⟩
      contextStart := hnumber 0 _ rfl
      contextSize := hnumber 1 _ rfl
      sectionsStart := hnumber 2 _ rfl
      sectionCount := hnumber 3 _ rfl }
  obtain ⟨read, hread, hbytes⟩ := hbefore.right.slice Vector.length_toList
  rw [Vector.toList_inj.mp hbytes] at hread
  exact hread

theorem context_entry_read {i : Nat} {e : String × Value} (he : d.context.entries[i]? = some e) :
    ∃ item, (writtenView d fingerprintOf).name?
        ((writtenView d fingerprintOf).contextStart + i * contextEntrySize) = some e.1 ∧
      (writtenView d fingerprintOf).Stores none
        ((writtenView d fingerprintOf).contextStart + i * contextEntrySize + slotSize) e.2 item := by
  have hcontext := (@entries_placed d fingerprintOf hd hfits).first
  obtain ⟨n, hpart⟩ := hcontext.part (fun n e _ => length_write_entry n e) he
  exact @read_context_entry (writtenView d fingerprintOf) _ _ _
    (hd.context e (List.mem_of_getElem? he)).2 hpart

theorem section_read {i : Nat} {s : Section} (hs : d.sections[i]? = some s) :
    ∃ w, (writtenView d fingerprintOf).sectionAt? (sectionsPlace d + i * sectionEntrySize) = some w ∧
      (writtenView d fingerprintOf).SectionAt w ∧ (writtenView d fingerprintOf).tableOf w = s := by
  have hlawful := hd.sections s (List.mem_of_getElem? hs)
  have hentries := (@entries_placed d fingerprintOf hd hfits).second
  rw [length_context, Nat.zero_add] at hentries
  obtain ⟨n, c, r, hplaced, hcolumnsFirst, hcolumnsLast, hrowsFirst, hrowsLast⟩ :=
    sections_placed hd.sections hentries (columns_held hd) (rows_held hd) hs
  obtain ⟨hsections, hcolumns, hrows, hheap⟩ := places_ordered d
  refine ⟨viewOf c r s, hplaced.view, hplaced.sound hlawful ⟨by omega, ?_⟩ ⟨by omega, ?_⟩,
    hplaced.table hlawful⟩
  · exact Nat.le_trans hcolumnsLast hheap
  · exact hrowsLast

theorem written_sound : (writtenView d fingerprintOf).Sound := by
  obtain ⟨hsections, hcolumns, hrows, hheap⟩ := places_ordered d
  refine ⟨⟨Nat.le_refl _, ?_⟩, fun i hi => ?_, ⟨?_, ?_⟩, fun i hi => ?_⟩
  · exact Nat.le_trans hcolumns (Nat.le_trans hrows hheap)
  · obtain ⟨item, hkey, hvalue⟩ :=
      @context_entry_read d fingerprintOf hd hfits i _ (List.getElem?_eq_getElem hi)
    exact ⟨by rw [hkey]; rfl, item, hvalue.slot, hvalue.fits⟩
  · exact hsections
  · exact Nat.le_trans hrows hheap
  · obtain ⟨w, hw, hsound, _⟩ :=
      @section_read d fingerprintOf hd hfits i _ (List.getElem?_eq_getElem hi)
    exact ⟨w, hw, hsound⟩

theorem written_entries : (writtenView d fingerprintOf).entries = d.context.entries := by
  refine entries_eq rfl fun i e he => ?_
  obtain ⟨item, hkey, hvalue⟩ := @context_entry_read d fingerprintOf hd hfits i e he
  have hi := (List.getElem?_eq_some_iff.mp he).1
  exact ⟨item, context_entry_eq hi hkey hvalue.slot, hvalue.value⟩

theorem written_sections :
    (writtenView d fingerprintOf).sections.map (writtenView d fingerprintOf).tableOf =
      d.sections := by
  refine tables_eq rfl fun i s hs => ?_
  obtain ⟨w, hw, _, htable⟩ := @section_read d fingerprintOf hd hfits i s hs
  have hi : i < (writtenView d fingerprintOf).sectionCount := (List.getElem?_eq_some_iff.mp hs).1
  refine ⟨w, ?_, htable⟩
  rw [View.section?, if_pos hi]
  exact hw

end

/-- What is written is accepted, and seen as it was written. -/
theorem view_written {d : Document} {fingerprintOf : ByteArray → Fingerprint} {b : ByteArray}
    (h : write d fingerprintOf = .ok b) :
    view b fingerprintOf = .ok (writtenView d fingerprintOf) := by
  obtain ⟨hvalid, hfits, hb⟩ := write_ok.mp h
  have hd := Document.is_valid_iff.mp hvalid
  exact view_ok.mpr ⟨hb, written_heads hd hfits, written_sound hd hfits⟩

theorem document_written {d : Document} {fingerprintOf : ByteArray → Fingerprint} {b : ByteArray}
    (h : write d fingerprintOf = .ok b) : (writtenView d fingerprintOf).document = .ok d := by
  obtain ⟨hvalid, hfits, -⟩ := write_ok.mp h
  have hd := Document.is_valid_iff.mp hvalid
  rw [View.document, map_error_eq_ok, read_document_ok (written_sound hd hfits)]
  exact ⟨(written_entries hd hfits).symm, (written_sections hd hfits).symm,
    Document.violations_nil.mpr hd⟩

/-- Whatever the fingerprints, a document that can be written is accepted and read back as it was. -/
theorem buffer_round_trip (d : Document) (fingerprintOf : ByteArray → Fingerprint) (b : ByteArray)
    (h : write d fingerprintOf = .ok b) :
    ∃ v, view b fingerprintOf = .ok v ∧ v.document = .ok d :=
  ⟨writtenView d fingerprintOf, view_written h, document_written h⟩

theorem read_of_write {d : Document} {fingerprintOf : ByteArray → Fingerprint} {b : ByteArray}
    (h : write d fingerprintOf = .ok b) : read b fingerprintOf = .ok d := by
  rw [read, view_written h, ok_bind, document_written h]

/-- A valid document is written unless a number in it is too large. -/
theorem write_valid {d : Document} (hd : d.isValid = true)
    (fingerprintOf : ByteArray → Fingerprint) :
    (∃ n, write d fingerprintOf = .error (.encoding [.tooLarge n])) ∨
      ∃ b, write d fingerprintOf = .ok b := by
  rw [write, Document.requireValid, if_pos hd, ok_bind]
  split
  · exact .inl ⟨_, rfl⟩
  · exact .inr ⟨_, rfl⟩

/-- A fingerprint that tells nothing apart. -/
def blank (_ : ByteArray) : Fingerprint := default

theorem write_shelf : write shelf blank = .ok (bufferOf shelf blank) :=
  write_ok.mpr ⟨by decide, by decide, rfl⟩

theorem buffer_round_trip_shelf :
    write shelf blank = .ok (bufferOf shelf blank) ∧
      ∃ v, view (bufferOf shelf blank) blank = .ok v ∧ v.document = .ok shelf :=
  ⟨write_shelf, buffer_round_trip shelf blank (bufferOf shelf blank) write_shelf⟩

end DocForms.Buffer
