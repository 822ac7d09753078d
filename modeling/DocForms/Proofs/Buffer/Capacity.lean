import DocForms.Proofs.Buffer.RoundTrip

namespace DocForms.Buffer

/-- The bytes that a text takes on the heap. -/
def textRoom (s : String) : Nat :=
  if s.utf8ByteSize ≤ inlineLimit then 0 else s.utf8ByteSize

mutual
/-- The bytes that a value takes on the heap. -/
def valueRoom : Value → Nat
  | .string s => textRoom s
  | .array items => itemsRoom items + items.length * slotSize
  | .bool _ | .int _ | .float _ => 0

def itemsRoom : List Value → Nat
  | [] => 0
  | v :: vs => valueRoom v + itemsRoom vs
end

def entryRoom (e : String × Value) : Nat :=
  textRoom e.1 + valueRoom e.2

def sectionRoom (s : Section) : Nat :=
  textRoom s.id + (s.columns.map fun c => textRoom c.name).sum + (s.rows.map itemsRoom).sum

/-- The bytes of the whole heap. -/
def heapRoom (d : Document) : Nat :=
  (d.context.entries.map entryRoom).sum + (d.sections.map sectionRoom).sum

/-- The size of the buffer of a document: the header, the tables, the rows and the heap. -/
def encodedSize (d : Document) : Nat :=
  headerSize + d.context.size * contextEntrySize + d.sections.length * sectionEntrySize +
    (d.sections.map columnsSize).sum + (d.sections.map rowsSize).sum + heapRoom d

theorem length_text_bytes (s : String) : (bytesOfText s).length = s.utf8ByteSize := by
  rw [bytesOfText, Array.length_toList, ByteArray.size_data]
  exact String.size_toByteArray

theorem length_text_heap (heapSize : Nat) (s : String) :
    (writeText heapSize s).heap.length = textRoom s := by
  rw [writeText, textRoom, ← length_text_bytes]
  split <;> rfl

mutual
theorem length_value_heap (heapSize : Nat) :
    (v : Value) → (writeValue heapSize v).heap.length = valueRoom v
  | .string s => by rw [writeValue, valueRoom, length_text_heap]
  | .array items => by
    rw [writeValue, valueRoom]
    dsimp only
    rw [List.length_append, length_items_heap heapSize items, length_write_items]
  | .bool _ | .int _ | .float _ => by
    rw [writeValue, valueRoom]
    rfl

theorem length_items_heap (heapSize : Nat) :
    (vs : List Value) → (writeItems heapSize vs).heap.length = itemsRoom vs
  | [] => by rw [writeItems, itemsRoom]; rfl
  | v :: vs => by
    rw [writeItems, itemsRoom, Piece.append]
    dsimp only
    rw [List.length_append, length_value_heap heapSize v, length_items_heap _ vs]
end

theorem items_room_eq (vs : List Value) : itemsRoom vs = (vs.map valueRoom).sum := by
  induction vs with
  | nil => rw [itemsRoom]; rfl
  | cons v vs ih => rw [itemsRoom, ih, List.map_cons, List.sum_cons]

theorem length_all_heap {α : Type} {write : Nat → α → Piece} {room : α → Nat}
    (h : ∀ heapSize a, (write heapSize a).heap.length = room a) (heapSize : Nat) (as : List α) :
    (writeAll write heapSize as).heap.length = (as.map room).sum := by
  induction as generalizing heapSize with
  | nil => rfl
  | cons a rest ih =>
    rw [writeAll, Piece.append]
    dsimp only
    rw [List.length_append, h, ih, List.map_cons, List.sum_cons]

theorem length_entry_heap (heapSize : Nat) (e : String × Value) :
    (writePair writeText writeValue heapSize e).heap.length = entryRoom e := by
  rw [writePair, Piece.append]
  dsimp only
  rw [List.length_append, length_text_heap, length_value_heap, entryRoom]

theorem length_column_heap (heapSize : Nat) (c : Column) :
    (writeColumn heapSize c).heap.length = textRoom c.name :=
  length_text_heap heapSize c.name

theorem length_section_heap (heapSize columnsStart rowsStart : Nat) (s : Section) :
    (writeSection heapSize columnsStart rowsStart s).entry.heap.length = sectionRoom s := by
  rw [writeSection]
  dsimp only
  rw [List.length_append, List.length_append, length_text_heap,
    length_all_heap length_column_heap, length_all_heap length_items_heap, sectionRoom]

theorem length_sections_heap (heapSize columnsStart rowsStart : Nat) (ss : List Section) :
    (Piece.concat ((writeSections heapSize columnsStart rowsStart ss).map
      SectionPiece.entry)).heap.length = (ss.map sectionRoom).sum := by
  induction ss generalizing heapSize columnsStart rowsStart with
  | nil => rfl
  | cons s rest ih =>
    rw [writeSections, List.map_cons, Piece.concat, Piece.append]
    dsimp only
    rw [List.length_append, length_section_heap, ih, List.map_cons, List.sum_cons]

theorem place_after_eq (size : Section → Nat) (start : Nat) (ss : List Section) :
    placeAfter size start ss = start + (ss.map size).sum := by
  induction ss generalizing start with
  | nil => rfl
  | cons s rest ih =>
    rw [List.map_cons, List.sum_cons, ← Nat.add_assoc, ← ih (start + size s)]
    rfl

theorem length_heap (d : Document) : (entries d).heap.length = heapRoom d := by
  rw [entries, Piece.append, sectionPieces]
  dsimp only
  rw [List.length_append, writeContext, length_all_heap length_entry_heap, length_sections_heap,
    heapRoom]

theorem encoded_size_eq (d : Document) :
    encodedSize d = heapPlace d + (entries d).heap.length := by
  rw [length_heap, heapPlace, place_after_eq, rowsPlace, place_after_eq, columnsPlace, sectionsPlace,
    encodedSize]

/-- The header states the true size of the buffer. -/
theorem size_buffer {d : Document} (hd : d.Lawful) (fingerprintOf : ByteArray → Fingerprint) :
    (bufferOf d fingerprintOf).size = encodedSize d := by
  rw [encoded_size_eq, size_with_heap hd]

/-- All numbers of a piece fit their bytes. -/
def Piece.Fits (p : Piece) : Prop :=
  ∀ n ∈ p.stated, n.number ≤ n.limit

theorem Piece.fits_empty : Piece.empty.Fits := nofun

theorem Piece.fits_append {p q : Piece} : (p.append q).Fits ↔ p.Fits ∧ q.Fits := by
  simp only [Piece.Fits, Piece.append, List.mem_append, or_imp, forall_and]

theorem fits_numbers {numbers : List Nat} :
    (writeNumbers numbers).Fits ↔ ∀ n ∈ numbers, n ≤ longLimit := by
  simp [Piece.Fits, writeNumbers]

/-- No name is too long for the two bytes that tell its size. -/
def ShortName (name : String) : Prop :=
  name.utf8ByteSize ≤ shortLimit

theorem fits_text {heapSize : Nat} {s : String} (h : heapSize + textRoom s ≤ longLimit) :
    (writeText heapSize s).Fits ↔ ShortName s := by
  have hsize := length_text_bytes s
  rw [writeText, ShortName]
  split
  · rename_i hinline
    have hshort : inlineLimit ≤ shortLimit := by decide
    simp only [Piece.Fits, List.not_mem_nil, false_imp_iff, implies_true, true_iff]
    omega
  · simp only [Piece.Fits, List.forall_mem_cons, List.not_mem_nil, false_imp_iff, implies_true,
      and_true, hsize]
    exact ⟨And.left, fun hs => ⟨hs, by omega⟩⟩

/-- Parts written one after another fit if each does that ends before `longLimit`. -/
theorem fits_all {α : Type} {write : Nat → α → Piece} {room : α → Nat} {P : α → Prop}
    (hroom : ∀ heapSize a, (write heapSize a).heap.length = room a) {as : List α}
    (hfits : ∀ a ∈ as, ∀ heapSize, heapSize + room a ≤ longLimit →
      ((write heapSize a).Fits ↔ P a))
    {heapSize : Nat} (h : heapSize + (as.map room).sum ≤ longLimit) :
    (writeAll write heapSize as).Fits ↔ ∀ a ∈ as, P a := by
  induction as generalizing heapSize with
  | nil => simp [writeAll, Piece.fits_empty]
  | cons a rest ih =>
    rw [List.map_cons, List.sum_cons] at h
    rw [writeAll, Piece.fits_append, hfits a (by simp) heapSize (by omega), hroom,
      ih (fun b hb => hfits b (List.mem_cons_of_mem _ hb)) (by omega), List.forall_mem_cons]

theorem fits_scalar_value {type? : Option ColumnType} {v : Value} (hv : v.LawfulScalar type?)
    {heapSize : Nat} (h : heapSize + valueRoom v ≤ longLimit) : (writeValue heapSize v).Fits := by
  cases v with
  | string s =>
    rw [writeValue]
    rw [valueRoom] at h
    exact (fits_text h).mpr hv.1
  | array items => cases hv
  | bool _ | int _ | float _ =>
    rw [writeValue]
    exact nofun

/-- The rules of documents leave only the offsets to be checked. -/
theorem fits_value {type? : Option ColumnType} {v : Value} (hv : v.Lawful type?) {heapSize : Nat}
    (h : heapSize + valueRoom v ≤ longLimit) : (writeValue heapSize v).Fits := by
  cases hkind : v.isArray with
  | false => exact fits_scalar_value ((Value.lawful_scalar hkind).mp hv) h
  | true =>
    cases v with
    | array items =>
      obtain ⟨hcount, hitems⟩ := hv
      rw [valueRoom] at h
      have hroom := length_items_heap heapSize items
      have hslots : (writeItems heapSize items).Fits := by
        rw [write_items_eq]
        refine (fits_all (P := fun _ => True) length_value_heap (fun v hv n hn => ?_) ?_).mpr
          fun _ _ => trivial
        · exact iff_true_intro (fits_scalar_value (hitems v hv) hn)
        · rw [← items_room_eq]
          omega
      rw [writeValue]
      simp only [Piece.Fits, List.cons_append, List.forall_mem_cons, List.forall_mem_append,
        List.not_mem_nil, false_imp_iff, implies_true, and_true]
      exact ⟨hcount, hslots, by omega⟩
    | _ => cases hkind

theorem lawful_in_row {s : Section} {row : Row} (hrow : s.LawfulRow row) {v : Value}
    (hv : v ∈ row) : ∃ t, v.Lawful (some t) := by
  obtain ⟨i, hi⟩ := List.mem_iff_getElem?.mp hv
  have hcolumn : i < s.storedColumns.length := by
    have hlt := (List.getElem?_eq_some_iff.mp hi).1
    rwa [hrow.width] at hlt
  refine ⟨_, hrow.cells (s.storedColumns[i], v) (List.mem_of_getElem? (i := i) ?_)⟩
  exact List.getElem?_zip_eq_some.mpr ⟨List.getElem?_eq_getElem hcolumn, hi⟩

theorem fits_row {s : Section} {row : Row} (hrow : s.LawfulRow row) {heapSize : Nat}
    (h : heapSize + itemsRoom row ≤ longLimit) : (writeItems heapSize row).Fits := by
  rw [items_room_eq] at h
  rw [write_items_eq]
  refine (fits_all (P := fun _ => True) length_value_heap (fun v hv n hn => ?_) h).mpr
    fun _ _ => trivial
  obtain ⟨t, ht⟩ := lawful_in_row hrow hv
  exact iff_true_intro (fits_value ht hn)

/-- A section whose tables end before `longLimit` fits if its names do. -/
theorem fits_section {s : Section} (hs : s.Lawful) {heapSize columnsStart rowsStart : Nat}
    (hheap : heapSize + sectionRoom s ≤ longLimit)
    (hcolumns : columnsStart + columnsSize s ≤ longLimit)
    (hrows : rowsStart + rowsSize s ≤ longLimit) :
    (writeSection heapSize columnsStart rowsStart s).entry.Fits ↔
      ShortName s.id ∧ ∀ c ∈ s.columns, ShortName c.name := by
  rw [sectionRoom] at hheap
  have hcolumnCount : s.columns.length ≤ columnsSize s := Nat.le_mul_of_pos_right _ (by decide)
  have hrowCount : s.rows.length ≤ rowsSize s :=
    Nat.le_mul_of_pos_right _ (Nat.mul_pos (Nat.pos_of_ne_zero hs.stored) (by decide))
  have hid := length_text_heap heapSize s.id
  have hnames := length_all_heap length_column_heap (heapSize + textRoom s.id) s.columns
  have hsplit : (writeSection heapSize columnsStart rowsStart s).entry.Fits ↔
      (writeText heapSize s.id).Fits ∧
      (writeNumbers [columnsStart, s.columns.length, rowsStart, s.rows.length]).Fits ∧
      (writeAll writeColumn (heapSize + textRoom s.id) s.columns).Fits ∧
      (writeAll writeItems (heapSize + textRoom s.id +
        (s.columns.map fun c => textRoom c.name).sum) s.rows).Fits := by
    simp only [Piece.Fits, writeSection, List.mem_append, or_imp, forall_and, and_assoc, hid, hnames]
  have hnumbers : (writeNumbers [columnsStart, s.columns.length, rowsStart, s.rows.length]).Fits :=
    fits_numbers.mpr (by simp; omega)
  have hcells : (writeAll writeItems (heapSize + textRoom s.id +
      (s.columns.map fun c => textRoom c.name).sum) s.rows).Fits :=
    (fits_all (P := fun _ => True) length_items_heap
      (fun row hrow n hn => iff_true_intro (fits_row (hs.rows row hrow) hn)) (by omega)).mpr
      fun _ _ => trivial
  have hcolumnNames : (writeAll writeColumn (heapSize + textRoom s.id) s.columns).Fits ↔
      ∀ c ∈ s.columns, ShortName c.name :=
    fits_all length_column_heap (fun c _ n hn => fits_text hn) (by omega)
  rw [hsplit, fits_text (by omega), hcolumnNames]
  constructor
  · rintro ⟨hname, -, hall, -⟩
    exact ⟨hname, hall⟩
  · rintro ⟨hname, hall⟩
    exact ⟨hname, hnumbers, hall, hcells⟩

/-- The names of a section: its id and those of its columns. -/
def sectionNames (s : Section) : List String :=
  s.id :: s.columns.map Column.name

/-- Every name in a document. -/
def namesOf (d : Document) : List String :=
  d.context.keys ++ d.sections.flatMap sectionNames

theorem fits_sections {ss : List Section} (hss : ∀ s ∈ ss, s.Lawful)
    {heapSize columnsStart rowsStart : Nat}
    (hheap : heapSize + (ss.map sectionRoom).sum ≤ longLimit)
    (hcolumns : columnsStart + (ss.map columnsSize).sum ≤ longLimit)
    (hrows : rowsStart + (ss.map rowsSize).sum ≤ longLimit) :
    (Piece.concat ((writeSections heapSize columnsStart rowsStart ss).map
      SectionPiece.entry)).Fits ↔ ∀ name ∈ ss.flatMap sectionNames, ShortName name := by
  induction ss generalizing heapSize columnsStart rowsStart with
  | nil => simp [writeSections, Piece.concat, Piece.fits_empty]
  | cons s rest ih =>
    simp only [List.map_cons, List.sum_cons] at hheap hcolumns hrows
    have hfirst : (writeSection heapSize columnsStart rowsStart s).entry.Fits ↔
        ShortName s.id ∧ ∀ c ∈ s.columns, ShortName c.name :=
      fits_section (hss s (by simp)) (by omega) (by omega) (by omega)
    rw [writeSections, List.map_cons, Piece.concat, Piece.fits_append, length_section_heap, hfirst,
      ih (fun t ht => hss t (List.mem_cons_of_mem _ ht)), List.flatMap_cons, List.forall_mem_append,
      sectionNames, List.forall_mem_cons, List.forall_mem_map]
    all_goals omega

theorem fits_context {c : Context} (hc : ∀ e ∈ c.entries, e.2.Lawful none)
    (h : (c.entries.map entryRoom).sum ≤ longLimit) :
    (writeContext c).Fits ↔ ∀ name ∈ c.keys, ShortName name := by
  rw [writeContext, fits_all (P := fun e => ShortName e.1) length_entry_heap
    (fun e he n hn => ?_) (by omega), Fields.keys, List.forall_mem_map]
  rw [entryRoom] at hn
  have hvalue : (writeValue (n + textRoom e.1) e.2).Fits := fits_value (hc e he) (by omega)
  rw [writePair, Piece.fits_append, length_text_heap, fits_text (by omega)]
  exact and_iff_left hvalue

/-- The largest number of the header is the size of the buffer. -/
theorem fits_header {d : Document} : (header d).Fits ↔ encodedSize d ≤ longLimit := by
  rw [header, fits_numbers, ← encoded_size_eq]
  constructor
  · intro h
    exact h _ (by simp)
  · intro h
    have hcontext : d.context.size ≤ d.context.size * contextEntrySize :=
      Nat.le_mul_of_pos_right _ (by decide)
    have hsections : d.sections.length ≤ d.sections.length * sectionEntrySize :=
      Nat.le_mul_of_pos_right _ (by decide)
    have hheap := encoded_size_eq d
    obtain ⟨hfirst, hcolumns, hrows, hlast⟩ := places_ordered d
    have hsize : sectionsPlace d + d.sections.length * sectionEntrySize ≤ encodedSize d := by
      have : columnsPlace d = sectionsPlace d + d.sections.length * sectionEntrySize := rfl
      omega
    have hsecond : headerSize + d.context.size * contextEntrySize ≤ encodedSize d := by
      have : sectionsPlace d = headerSize + d.context.size * contextEntrySize := rfl
      omega
    simp only [List.forall_mem_cons, List.not_mem_nil, false_imp_iff, implies_true, and_true]
    omega

/-- A valid document fits its buffer exactly if its names and the whole do. -/
theorem fits_body {d : Document} (hd : d.Lawful) : (body d).Fits ↔
    (∀ name ∈ namesOf d, ShortName name) ∧ encodedSize d ≤ longLimit := by
  have hsplit : (body d).Fits ↔ (entries d).Fits ∧ (header d).Fits := by
    simp only [Piece.Fits, body, List.forall_mem_append]
  rw [hsplit, fits_header, and_congr_left_iff]
  intro hsize
  rw [encodedSize, heapRoom] at hsize
  have hcontext : (writeContext d.context).Fits ↔ ∀ name ∈ d.context.keys, ShortName name :=
    fits_context (fun e he => (hd.context e he).2) (by omega)
  have hheap : (writeContext d.context).heap.length = (d.context.entries.map entryRoom).sum :=
    length_all_heap length_entry_heap 0 _
  rw [entries, Piece.fits_append, sectionPieces, hcontext, fits_sections hd.sections, namesOf,
    List.forall_mem_append]
  · omega
  · rw [columnsPlace, sectionsPlace]
    omega
  · rw [rowsPlace, place_after_eq, columnsPlace, sectionsPlace]
    omega

/-- A document that has a written form: it is valid, no name is too long and neither is the whole. -/
structure Encodable (d : Document) : Prop where
  valid : d.isValid = true
  names : ∀ name ∈ namesOf d, ShortName name
  size : encodedSize d ≤ longLimit

theorem write_encodable {d : Document} (h : Encodable d) (fingerprintOf : ByteArray → Fingerprint) :
    write d fingerprintOf = .ok (bufferOf d fingerprintOf) :=
  write_ok.mpr ⟨h.valid, (fits_body (Document.is_valid_iff.mp h.valid)).mpr ⟨h.names, h.size⟩, rfl⟩

theorem encodable_of_write {d : Document} {fingerprintOf : ByteArray → Fingerprint} {b : ByteArray}
    (h : write d fingerprintOf = .ok b) : Encodable d := by
  obtain ⟨hvalid, hfits, -⟩ := write_ok.mp h
  obtain ⟨hnames, hsize⟩ := (fits_body (Document.is_valid_iff.mp hvalid)).mp hfits
  exact ⟨hvalid, hnames, hsize⟩

end DocForms.Buffer
