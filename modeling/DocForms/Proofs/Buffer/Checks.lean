import DocForms.Buffer.Reader
import DocForms.Proofs.Outcomes

namespace DocForms.Buffer

variable {v : View} {position : Nat}

@[simp]
theorem require_ok {p : Prop} [Decidable p] {fault : BufferFault} {u : Unit} :
    require p fault = .ok u ↔ p := by
  by_cases hp : p <;> simp [require, refuse, hp]

@[simp]
theorem or_refuse_ok {α : Type} {fault : BufferFault} {a? : Option α} {a : α} :
    orRefuse fault a? = .ok a ↔ a? = some a := by
  cases a? <;> simp [orRefuse, refuse]

theorem check_name_ok {u : Unit} :
    checkName v position = .ok u ↔ (v.name? position).isSome = true := by
  simp [checkName, View.name?]

/-- A slot whose value can be read and may stand under a type. -/
def View.ValueAt (v : View) (type? : Option ColumnType) (position : Nat) : Prop :=
  ∃ item, v.slot? position = some item ∧ fitsAll v type? item = true

theorem check_value_ok {type? : Option ColumnType} {u : Unit} :
    checkValue v type? position = .ok u ↔ v.ValueAt type? position := by
  simp [checkValue, bind_eq_ok, View.ValueAt, View.slot?]

structure View.EntryAt (v : View) (position : Nat) : Prop where
  key : (v.name? position).isSome = true
  value : v.ValueAt none (position + slotSize)

theorem check_context_entry_ok {u : Unit} :
    checkContextEntry v position = .ok u ↔ v.EntryAt position := by
  simp only [checkContextEntry, bind_eq_ok, check_name_ok, check_value_ok]
  constructor
  · rintro ⟨_, hkey, hvalue⟩
    exact ⟨hkey, hvalue⟩
  · intro h
    exact ⟨(), h.key, h.value⟩

theorem check_column_ok {t : ColumnType} :
    checkColumn v position = .ok t ↔ ∃ c, v.columnAt? position = some c ∧ c.type = t := by
  simp only [checkColumn, bind_eq_ok, check_name_ok, or_refuse_ok, View.columnAt?]
  constructor
  · rintro ⟨_, hname, code, hcode, ht⟩
    obtain ⟨name, hname⟩ := Option.isSome_iff_exists.mp hname
    exact ⟨⟨name, t⟩, by simp [hname, hcode, ht], rfl⟩
  · rintro ⟨c, hc, rfl⟩
    simp only [Option.bind_eq_bind, Option.bind_eq_some_iff] at hc
    obtain ⟨name, hname, code, hcode, t, ht, hc⟩ := hc
    cases hc
    exact ⟨(), by simp [hname], code, hcode, ht⟩

/-- A table that lies between the header and the heap. -/
structure View.TableAt (v : View) (start count size : Nat) : Prop where
  first : headerSize ≤ start
  last : start + count * size ≤ v.heapStart

theorem require_table_ok {fault : BufferFault} {start count size : Nat} {u : Unit} :
    requireTable v fault start count size = .ok u ↔ v.TableAt start count size := by
  rw [requireTable, require_ok]
  exact ⟨fun ⟨hfirst, hlast⟩ => ⟨hfirst, hlast⟩, fun h => ⟨h.first, h.last⟩⟩

theorem forall_places {start count size : Nat} {p : Nat → Prop} :
    (∀ q ∈ places start count size, p q) ↔ ∀ i < count, p (start + i * size) := by
  simp [places]

/-- The types of the stored columns of a section. -/
def View.storedTypes (v : View) (s : SectionView) : List ColumnType :=
  ((v.columnsAt s.columnsStart s.columnCount).filter (·.type.isStored)).map Column.type

/-- A section whose columns can be read, and whose rows hold a value for each of their slots. -/
structure View.SectionAt (v : View) (s : SectionView) : Prop where
  columns : v.TableAt s.columnsStart s.columnCount columnEntrySize
  column : ∀ i < s.columnCount, (v.column? s i).isSome = true
  width : (v.storedTypes s).length = s.storedWidth
  rows : v.TableAt s.rowsStart s.rowCount (s.storedWidth * slotSize)
  cell : ∀ i < s.rowCount * s.storedWidth, ∃ t, (v.storedTypes s)[i % s.storedWidth]? = some t ∧
    v.ValueAt (some t) (s.rowsStart + i * slotSize)

theorem check_cell_ok {types : List ColumnType} {start index : Nat} {u : Unit} :
    checkCell v types start index = .ok u ↔ ∃ t, types[index % types.length]? = some t ∧
      v.ValueAt (some t) (start + index * slotSize) := by
  simp only [checkCell, bind_eq_ok, or_refuse_ok, check_value_ok]

/-- The entry of a section names its tables, and the width of its rows follows from its columns. -/
theorem section_at_eq {s : SectionView} :
    v.sectionAt? position = some s ↔ v.name? position = some s.id ∧
      numberAt? v.buffer (position + 16) 4 = some s.columnsStart ∧
      numberAt? v.buffer (position + 20) 4 = some s.columnCount ∧
      numberAt? v.buffer (position + 24) 4 = some s.rowsStart ∧
      numberAt? v.buffer (position + 28) 4 = some s.rowCount ∧
      (v.storedTypes s).length = s.storedWidth := by
  simp only [View.sectionAt?, Option.bind_eq_bind, Option.bind_eq_some_iff, View.storedTypes,
    List.length_map]
  constructor
  · rintro ⟨id, hid, start, hstart, count, hcount, rows, hrows, n, hn, hs⟩
    cases hs
    exact ⟨hid, hstart, hcount, hrows, hn, rfl⟩
  · rintro ⟨hid, hstart, hcount, hrows, hn, hwidth⟩
    exact ⟨_, hid, _, hstart, _, hcount, _, hrows, _, hn, by rw [hwidth]; rfl⟩

theorem check_section_ok {u : Unit} :
    checkSection v position = .ok u ↔ ∃ s, v.sectionAt? position = some s ∧ v.SectionAt s := by
  simp only [checkSection, bind_eq_ok, check_name_ok, or_refuse_ok, require_table_ok,
    mapM_eq_ok (fun _ _ => check_column_ok), forM_eq_ok, check_cell_ok, List.mem_range]
  constructor
  · rintro ⟨_, hname, columns, hcolumns, columnCount, hcolumnCount, rows, hrows, rowCount, hrowCount,
      _, hcolumnTable, types, ⟨hall, htypes⟩, _, hrowTable, hcells⟩
    obtain ⟨id, hid⟩ := Option.isSome_iff_exists.mp hname
    have hstored : types.filter ColumnType.isStored =
        v.storedTypes ⟨id, columns, columnCount, rows, rowCount, 0⟩ := by
      rw [← htypes, List.filter_map]
      rfl
    rw [hstored] at hrowTable hcells
    refine ⟨⟨id, columns, columnCount, rows, rowCount, _⟩,
      section_at_eq.mpr ⟨hid, hcolumns, hcolumnCount, hrows, hrowCount, rfl⟩,
      hcolumnTable, ?_, rfl, hrowTable, hcells⟩
    intro i hi
    rw [View.column?, if_pos hi]
    exact forall_places.mp hall i hi
  · rintro ⟨s, hs, h⟩
    obtain ⟨hid, hcolumns, hcolumnCount, hrows, hrowCount, _⟩ := section_at_eq.mp hs
    have hall : ∀ p ∈ places s.columnsStart s.columnCount columnEntrySize,
        (v.columnAt? p).isSome = true := by
      refine forall_places.mpr fun i hi => ?_
      have hcolumn := h.column i hi
      rwa [View.column?, if_pos hi] at hcolumn
    have hstored : ((v.columnsAt s.columnsStart s.columnCount).map Column.type).filter
        ColumnType.isStored = v.storedTypes s := by
      rw [List.filter_map]
      rfl
    refine ⟨(), by simp [hid], _, hcolumns, _, hcolumnCount, _, hrows, _, hrowCount, (), h.columns, _,
      ⟨hall, rfl⟩, (), ?_⟩
    rw [← View.columnsAt, hstored, h.width]
    exact ⟨h.rows, h.cell⟩

/-- Every table lies in its place, and all that it holds can be read. -/
structure View.Sound (v : View) : Prop where
  contextTable : v.TableAt v.contextStart v.contextSize contextEntrySize
  entry : ∀ i < v.contextSize, v.EntryAt (v.contextStart + i * contextEntrySize)
  sectionTable : v.TableAt v.sectionsStart v.sectionCount sectionEntrySize
  section_ : ∀ i < v.sectionCount, ∃ s,
    v.sectionAt? (v.sectionsStart + i * sectionEntrySize) = some s ∧ v.SectionAt s

theorem check_structure_ok {u : Unit} : checkStructure v = .ok u ↔ v.Sound := by
  simp only [checkStructure, bind_eq_ok, require_table_ok, forM_eq_ok, check_context_entry_ok,
    check_section_ok, forall_places]
  constructor
  · rintro ⟨_, hcontext, _, hentries, _, hsections, hall⟩
    exact ⟨hcontext, hentries, hsections, hall⟩
  · intro h
    exact ⟨(), h.contextTable, (), h.entry, (), h.sectionTable, h.section_⟩

/-- The header of a buffer as a view has it. -/
structure View.Heads (v : View) (fingerprintOf : ByteArray → Fingerprint) : Prop where
  long : headerSize ≤ v.buffer.size
  magic : (slice? v.buffer 0 4).map Vector.toList = some magic
  version : numberAt? v.buffer 4 2 = some version
  reserved : (slice? v.buffer 6 2).map Vector.toList = some (zeros 2)
  size : numberAt? v.buffer 60 4 = some v.buffer.size
  fingerprint : slice? v.buffer 8 32 = some v.fingerprint.bytes
  signed : (sliceFrom? v.buffer signedStart).map fingerprintOf = some v.fingerprint
  heapStart : numberAt? v.buffer 56 4 = some v.heapStart
  heap : headerSize ≤ v.heapStart ∧ v.heapStart ≤ v.buffer.size
  contextStart : numberAt? v.buffer 40 4 = some v.contextStart
  contextSize : numberAt? v.buffer 44 4 = some v.contextSize
  sectionsStart : numberAt? v.buffer 48 4 = some v.sectionsStart
  sectionCount : numberAt? v.buffer 52 4 = some v.sectionCount

/-- A buffer is accepted exactly if its header and its structure are right. -/
theorem view_ok {b : ByteArray} {fingerprintOf : ByteArray → Fingerprint} :
    view b fingerprintOf = .ok v ↔ v.buffer = b ∧ v.Heads fingerprintOf ∧ v.Sound := by
  simp only [view, map_error_eq_ok, view?, bind_eq_ok, require_ok, headerBytes, headerField,
    or_refuse_ok, check_structure_ok]
  constructor
  · rintro ⟨_, hlong, magic, hmagic, _, hdxmb, _, hversion, reserved, hreserved, _, hzeros,
      size, hsize, _, rfl, fingerprint, hfingerprint, signed, hsigned, _, hequal, heapStart,
      hheapStart, _, hheap, contextStart, hcontextStart, contextSize, hcontextSize, sectionsStart,
      hsectionsStart, sectionCount, hsectionCount, _, hsound, hv⟩
    cases hv
    have hstated : numberAt? b 4 2 = some version := by
      cases hn : numberAt? b 4 2 with
      | none => simp [hn, version] at hversion
      | some n => simpa [hn] using hversion
    exact ⟨rfl, ⟨hlong, by simp [hmagic, hdxmb], hstated, by simp [hreserved, hzeros], hsize,
      hfingerprint, by simp [hsigned, hequal], hheapStart, hheap, hcontextStart, hcontextSize,
      hsectionsStart, hsectionCount⟩, hsound⟩
  · rintro ⟨rfl, h, hsound⟩
    obtain ⟨magic, hmagic, hdxmb⟩ := Option.map_eq_some_iff.mp h.magic
    obtain ⟨reserved, hreserved, hzeros⟩ := Option.map_eq_some_iff.mp h.reserved
    obtain ⟨signed, hsigned, hequal⟩ := Option.map_eq_some_iff.mp h.signed
    exact ⟨(), h.long, magic, hmagic, (), hdxmb, (), by simp [h.version], reserved, hreserved, (),
      hzeros, _, h.size, (), rfl, _, h.fingerprint, signed, hsigned, (), hequal, _, h.heapStart, (),
      h.heap, _, h.contextStart, _, h.contextSize, _, h.sectionsStart, _, h.sectionCount, (), hsound,
      rfl⟩

end DocForms.Buffer
