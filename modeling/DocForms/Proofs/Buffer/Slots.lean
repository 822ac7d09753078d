import DocForms.Proofs.Buffer.Access
import DocForms.Proofs.Buffer.Bytes
import DocForms.Proofs.Document.Rules

namespace DocForms.Buffer
open Number

/-- A piece as it is found in a buffer: its table at one place, and its heap bytes as far into the heap
as the writer was told. -/
structure Placed (b : ByteArray) (heapStart position heapSize : Nat) (p : Piece) : Prop where
  table : Holds b position p.table
  heap : Holds b (heapStart + heapSize) p.heap
  fits : ∀ n ∈ p.stated, n.number ≤ n.limit

section
variable {b : ByteArray} {heapStart position heapSize : Nat} {p q : Piece}

theorem Placed.first (h : Placed b heapStart position heapSize (p.append q)) :
    Placed b heapStart position heapSize p :=
  ⟨h.table.left, h.heap.left, fun n hn => h.fits n (List.mem_append_left _ hn)⟩

theorem Placed.second (h : Placed b heapStart position heapSize (p.append q)) :
    Placed b heapStart (position + p.table.length) (heapSize + p.heap.length) q := by
  refine ⟨h.table.right, ?_, fun n hn => h.fits n (List.mem_append_right _ hn)⟩
  rw [← Nat.add_assoc]
  exact h.heap.right

/-- Each part of what is written one after another is found at its own place. -/
theorem Placed.part {α : Type} {write : Nat → α → Piece} {size : Nat} {as : List α}
    (hsize : ∀ heapSize, ∀ a ∈ as, (write heapSize a).table.length = size)
    (h : Placed b heapStart position heapSize (writeAll write heapSize as)) {i : Nat} {a : α}
    (ha : as[i]? = some a) :
    ∃ heapSize, Placed b heapStart (position + i * size) heapSize (write heapSize a) := by
  induction as generalizing position heapSize i with
  | nil => cases ha
  | cons a' rest ih =>
    cases i with
    | zero =>
      cases ha
      exact ⟨heapSize, by simpa using h.first⟩
    | succ i =>
      have hrest := h.second
      rw [hsize heapSize a' (by simp)] at hrest
      obtain ⟨heapSize', hpart⟩ := ih (fun n c hc => hsize n c (List.mem_cons_of_mem _ hc)) hrest ha
      refine ⟨heapSize', ?_⟩
      rwa [Nat.add_assoc, Nat.add_comm size, ← Nat.succ_mul] at hpart

end

theorem length_write_all {α : Type} {write : Nat → α → Piece} {size : Nat} {as : List α}
    (hsize : ∀ heapSize, ∀ a ∈ as, (write heapSize a).table.length = size) (heapSize : Nat) :
    (writeAll write heapSize as).table.length = as.length * size := by
  induction as generalizing heapSize with
  | nil => simp [writeAll, Piece.empty]
  | cons a rest ih =>
    rw [writeAll, Piece.append, List.length_append, hsize heapSize a (by simp),
      ih (fun n c hc => hsize n c (List.mem_cons_of_mem _ hc)), List.length_cons, Nat.succ_mul]
    omega

theorem write_items_eq (heapSize : Nat) (items : List Value) :
    writeItems heapSize items = writeAll writeValue heapSize items := by
  induction items generalizing heapSize with
  | nil => rw [writeItems, writeAll]
  | cons v vs ih => rw [writeItems, writeAll, ih]

theorem length_write_text (heapSize : Nat) (s : String) :
    (writeText heapSize s).table.length = slotSize := by
  unfold writeText
  dsimp only
  split
  · simp [zeros, inlineLimit, slotSize] at *
    omega
  · simp [heapSlot, zeros, length_bytes_of]

theorem length_write_value (heapSize : Nat) (v : Value) :
    (writeValue heapSize v).table.length = slotSize := by
  cases v with
  | string s => rw [writeValue, length_write_text]
  | array items => simp [writeValue, heapSlot, zeros, length_bytes_of]
  | _ => simp [writeValue, wordSlot, zeros, length_bytes_of]

variable {v : View} {position heapSize : Nat}

theorem read_slot_bytes {bytes : Bytes} (h : Holds v.buffer position bytes)
    (hlength : bytes.length = slotSize) :
    ∃ slot : Slot, slice? v.buffer position slotSize = some slot ∧ slot.toList = bytes ∧
      bytes[0]? = some slot[0] := by
  obtain ⟨slot, hslot, hbytes⟩ := h.slice hlength
  refine ⟨slot, hslot, hbytes, ?_⟩
  rw [← hbytes, Vector.getElem?_toList]
  exact getElem?_pos slot 0 (by decide)

theorem short_lt {n : Nat} (h : n ≤ shortLimit) : n < 256 ^ 2 :=
  Nat.lt_of_le_of_lt h (by decide)

theorem long_lt {n : Nat} (h : n ≤ longLimit) : n < 256 ^ 4 :=
  Nat.lt_of_le_of_lt h (by decide)

theorem read_word {slot : Slot} {kind : UInt8} {n : Nat} (h : slot.toList = wordSlot kind n)
    (hn : n < 256 ^ 8) : slotNumber slot 8 8 = n := by
  have hword : ((wordSlot kind n).drop 8).take 8 = bytesOf 8 n := by
    simp [wordSlot, zeros, List.take_of_length_le, length_bytes_of]
  rw [slotNumber, h, hword, number_of_bytes_of hn]

theorem read_target {slot : Slot} {kind : UInt8} {offset count : Nat}
    (h : slot.toList = heapSlot kind offset count) (hoffset : offset ≤ longLimit) :
    slotNumber slot 4 4 = offset := by
  have htarget : ((heapSlot kind offset count).drop 4).take 4 = bytesOf 4 offset := by
    simp [heapSlot, zeros, List.take_left', length_bytes_of]
  rw [slotNumber, h, htarget, number_of_bytes_of (long_lt hoffset)]

theorem read_count {slot : Slot} {kind : UInt8} {offset count : Nat}
    (h : slot.toList = heapSlot kind offset count) (hcount : count ≤ shortLimit) :
    slotNumber slot 8 2 = count := by
  have hsplit : heapSlot kind offset count =
      (kind :: zeros 3 ++ bytesOf 4 offset) ++ (bytesOf 2 count ++ zeros 6) := by
    simp [heapSlot]
  rw [slotNumber, h, hsplit, List.drop_left' (by simp [zeros, length_bytes_of]),
    List.take_left' (length_bytes_of 2 count), number_of_bytes_of (short_lt hcount)]

/-- A text is read back whether it stands in its slot or on the heap. -/
theorem read_text {s : String}
    (h : Placed v.buffer v.heapStart position heapSize (writeText heapSize s)) :
    v.slot? position = some (.string s) := by
  obtain ⟨slot, hslot, hbytes, hkind⟩ := read_slot_bytes h.table (length_write_text heapSize s)
  have htext := text_of_bytes s
  have hheap := h.heap
  have hfits := h.fits
  rw [writeText] at hbytes hkind hheap hfits
  generalize bytesOfText s = bytes at htext hbytes hkind hheap hfits
  rw [View.slot?, readSlot?, hslot]
  by_cases hshort : bytes.length ≤ inlineLimit
  · simp only [hshort, if_true] at hbytes hkind
    have hzero : slot[0] = 0 := by simpa using hkind.symm
    have hsize : slotNumber slot 1 1 = bytes.length := by
      have hlow : (UInt8.ofNat bytes.length).toNat = bytes.length := by
        rw [UInt8.toNat_ofNat', Nat.mod_eq_of_lt]
        simp only [inlineLimit] at hshort
        omega
      simp [slotNumber, hbytes, numberOf, hlow]
    have hinline : (slot.toList.drop 2).take bytes.length = bytes := by
      simp [hbytes]
    simp [hzero, hsize, hshort, hinline, htext]
  · simp only [hshort, if_false] at hbytes hkind hheap hfits
    have hone : slot[0] = 1 := by simpa [heapSlot] using hkind.symm
    have htarget := read_target hbytes (hfits ⟨longLimit, heapSize⟩ (by simp))
    have hcount := read_count hbytes (hfits ⟨shortLimit, bytes.length⟩ (by simp))
    obtain ⟨read, hread, hcontent⟩ := hheap.slice rfl
    simp only [Option.bind_eq_bind, Option.bind_some, hone, htarget]
    -- The count is part of a type, so all of its places are rewritten at once.
    rw [hcount, hread, Option.bind_some, hcontent, htext, Option.map_some]

theorem read_name {s : String}
    (h : Placed v.buffer v.heapStart position heapSize (writeText heapSize s)) :
    v.name? position = some s := by
  have hread : readSlot? v.buffer v.heapStart position = some (.string s) := read_text h
  rw [View.name?, readName?, hread]

/-- A scalar is read back from its slot. -/
theorem read_scalar {type? : Option ColumnType} {value : Value} (hvalue : value.LawfulScalar type?)
    (h : Placed v.buffer v.heapStart position heapSize (writeValue heapSize value)) :
    ∃ item, v.slot? position = some item ∧ item.scalar? = some value := by
  cases value with
  | string s =>
    rw [writeValue] at h
    exact ⟨.string s, read_text h, rfl⟩
  | int n =>
    obtain ⟨slot, hslot, hbytes, hkind⟩ := read_slot_bytes h.table (length_write_value heapSize _)
    rw [writeValue] at hbytes hkind
    have htwo : slot[0] = 2 := by simpa [wordSlot] using hkind.symm
    have hword : UInt64.ofNat (slotNumber slot 8 8) = n.toUInt64 := by
      rw [read_word hbytes (UInt64.toNat_lt _), UInt64.ofNat_toNat]
    refine ⟨.int n, ?_, rfl⟩
    rw [View.slot?, readSlot?, hslot]
    simp only [Option.bind_eq_bind, Option.bind_some, htwo, hword]
    rfl
  | float x =>
    obtain ⟨slot, hslot, hbytes, hkind⟩ := read_slot_bytes h.table (length_write_value heapSize _)
    rw [writeValue] at hbytes hkind
    have hthree : slot[0] = 3 := by simpa [wordSlot] using hkind.symm
    have hword : UInt64.ofNat (slotNumber slot 8 8) = x.bits := by
      rw [read_word hbytes (UInt64.toNat_lt _), UInt64.ofNat_toNat]
    refine ⟨.float x, ?_, rfl⟩
    rw [View.slot?, readSlot?, hslot]
    simp only [Option.bind_eq_bind, Option.bind_some, hthree, hword]
  | bool c =>
    obtain ⟨slot, hslot, hbytes, hkind⟩ := read_slot_bytes h.table (length_write_value heapSize _)
    rw [writeValue] at hbytes hkind
    have hfour : slot[0] = 4 := by simpa [wordSlot] using hkind.symm
    have hbit : slotNumber slot 8 1 = c.toNat := by
      rw [slotNumber, hbytes]
      cases c <;> rfl
    refine ⟨.bool c, ?_, rfl⟩
    rw [View.slot?, readSlot?, hslot]
    cases c <;> simp [hfour, hbit]
  | array items => cases hvalue

theorem value_of_scalar {item : Item} {value : Value} (h : item.scalar? = some value) :
    v.valueOf item = value := by
  cases item with
  | array start count => cases h
  | _ =>
    cases h
    rfl

theorem fits_scalar {type? : Option ColumnType} {item : Item} {value : Value}
    (h : item.scalar? = some value) (hvalue : value.LawfulScalar type?) :
    fits type? item = true := by
  cases type? with
  | none =>
    cases item with
    | array start count => cases h
    | _ => rfl
  | some t =>
    cases item with
    | array start count => cases h
    | string s =>
      cases h
      obtain rfl := hvalue.2 t rfl
      rfl
    | int n =>
      cases h
      rcases hvalue t rfl with rfl | ⟨rfl, _⟩ <;> rfl
    | float x =>
      cases h
      obtain rfl := hvalue.2 t rfl
      rfl
    | bool b =>
      cases h
      obtain rfl := hvalue t rfl
      rfl

/-- A slot that holds a value, which may stand under a type. -/
structure View.Stores (v : View) (type? : Option ColumnType) (position : Nat) (value : Value)
    (item : Item) : Prop where
  slot : v.slot? position = some item
  value : v.valueOf item = value
  fits : fitsAll v type? item = true

theorem fits_all_scalar {type? : Option ColumnType} {item : Item} (h : item.isArray = false) :
    fitsAll v type? item = fits type? item := by
  cases item with
  | array start count => cases h
  | _ => rfl

/-- An array whose items stand in slots one after another. -/
theorem stored_items {type? : Option ColumnType} (start : Nat) {items : List Value}
    (h : ∀ i value, items[i]? = some value → ∃ e, v.slot? (start + i * slotSize) = some e ∧
      e.scalar? = some value)
    (hitems : ∀ value ∈ items, value.LawfulScalar type?) :
    v.valueOf (.array start items.length) = .array items ∧
      fitsAll v type? (.array start items.length) = true := by
  have hget : ∀ i value, items[i]? = some value →
      ∃ e, Item.get? v.buffer v.heapStart (.array start items.length) i = some e ∧
        e.scalar? = some value := by
    intro i value hvalue
    have hi : i < items.length := (List.getElem?_eq_some_iff.mp hvalue).1
    rw [Item.get?, if_pos hi]
    exact h i value hvalue
  constructor
  · refine congrArg Value.array (filter_map_range_eq fun i value hvalue => ?_)
    obtain ⟨e, he, hscalar⟩ := hget i value hvalue
    rw [he]
    exact hscalar
  · rw [fitsAll, List.all_eq_true]
    intro i hi
    have hvalue := List.getElem?_eq_getElem (List.mem_range.mp hi)
    obtain ⟨e, he, hscalar⟩ := hget i _ hvalue
    rw [he]
    exact fits_scalar hscalar (hitems _ (List.mem_of_getElem? hvalue))

/-- A value is read back with its items, wherever they stand. -/
theorem read_value {type? : Option ColumnType} {value : Value} (hvalue : value.Lawful type?)
    (h : Placed v.buffer v.heapStart position heapSize (writeValue heapSize value)) :
    ∃ item, v.Stores type? position value item := by
  cases hkind : value.isArray with
  | false =>
    have hscalar := (Value.lawful_scalar hkind).mp hvalue
    obtain ⟨item, hslot, hitem⟩ := read_scalar hscalar h
    have hfits := fits_scalar hitem hscalar
    refine ⟨item, hslot, value_of_scalar hitem, ?_⟩
    rw [fits_all_scalar (fits_not_array hfits), hfits]
  | true =>
    cases value with
    | array items =>
      obtain ⟨slot, hslot, hbytes, hfirst⟩ :=
        read_slot_bytes h.table (length_write_value heapSize _)
      have hheap := h.heap
      have hfits := h.fits
      simp only [writeValue] at hbytes hfirst hheap hfits
      have hslots := write_items_eq heapSize items
      generalize writeItems heapSize items = slots at hslots hbytes hfirst hheap hfits
      have hfive : slot[0] = 5 := by simpa [heapSlot] using hfirst.symm
      have htarget := read_target hbytes (hfits ⟨longLimit, heapSize + slots.heap.length⟩ (by simp))
      have hcount := read_count hbytes (hfits ⟨shortLimit, items.length⟩ (by simp))
      have hplaced : Placed v.buffer v.heapStart (v.heapStart + (heapSize + slots.heap.length))
          heapSize (writeAll writeValue heapSize items) := by
        rw [← hslots]
        refine ⟨?_, hheap.left, fun n hn => hfits n (by simp [hn])⟩
        rw [← Nat.add_assoc]
        exact hheap.right
      have hroom := hplaced.table.room
      rw [length_write_all fun n w _ => length_write_value n w] at hroom
      obtain ⟨hread, hfit⟩ := stored_items (v.heapStart + (heapSize + slots.heap.length))
        (fun i w hw => by
          obtain ⟨n, hpart⟩ := hplaced.part (fun n w _ => length_write_value n w) hw
          exact read_scalar (hvalue.2 w (List.mem_of_getElem? hw)) hpart) hvalue.2
      refine ⟨.array (v.heapStart + (heapSize + slots.heap.length)) items.length, ?_, hread, hfit⟩
      rw [View.slot?, readSlot?, hslot]
      simp [hfive, htarget, hcount, hroom]
    | _ => cases hkind

end DocForms.Buffer
