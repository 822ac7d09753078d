import DocForms.Proofs.Buffer.Soundness

namespace DocForms.Buffer

/-- What the fingerprint of a buffer covers. -/
def signedBytes (b : ByteArray) : ByteArray :=
  b.extract signedStart b.size

/-- Two buffers have the same bytes at the positions from `first` to before `last`, and end together if
they end there. -/
def AgreeOn (a b : ByteArray) (first last : Nat) : Prop :=
  ∀ i, first ≤ i → i < last → a[i]? = b[i]?

theorem bytes_of_number_of (bytes : Bytes) : bytesOf bytes.length (numberOf bytes) = bytes := by
  induction bytes with
  | nil => rfl
  | cons b bs ih =>
    have hb := b.toNat_lt
    have hlow : (b.toNat + 256 * numberOf bs) % 256 = b.toNat := by omega
    have hhigh : (b.toNat + 256 * numberOf bs) / 256 = numberOf bs := by omega
    rw [List.length_cons, numberOf, bytesOf, hlow, hhigh, ih, UInt8.ofNat_toNat]

section
variable {a b : ByteArray} {position count : Nat}

theorem byte_at (b : ByteArray) (i : Nat) : b[i]? = b.data.toList[i]? := by
  by_cases h : i < b.size
  · rw [getElem?_pos b i h, ByteArray.getElem_eq_getElem_data, Array.getElem?_toList]
    exact (Array.getElem?_eq_getElem _).symm
  · rw [getElem?_neg b i h, List.getElem?_eq_none]
    rwa [Array.length_toList, ByteArray.size_data, ← Nat.not_lt]

theorem slice_list {read : Vector UInt8 count} (h : slice? b position count = some read) :
    read.toList = (b.data.toList.drop position).take count := by
  rw [slice?] at h
  split at h
  · cases h
    change (b.extract position (position + count)).data.toList = _
    rw [ByteArray.data_extract, Array.toList_extract, List.extract_eq_take_drop,
      Nat.add_sub_cancel_left]
  · cases h

theorem signed_list (b : ByteArray) :
    (signedBytes b).data.toList = b.data.toList.drop signedStart := by
  rw [signedBytes, ByteArray.data_extract, Array.toList_extract, List.extract_eq_take_drop]
  exact List.take_of_length_le (by simp)

theorem slice_agree (h : AgreeOn a b position (position + count))
    (ha : position + count ≤ a.size) (hb : position + count ≤ b.size) :
    slice? a position count = slice? b position count := by
  obtain ⟨read, hread⟩ := Option.isSome_iff_exists.mp (slice_is_some.mpr ha)
  obtain ⟨read', hread'⟩ := Option.isSome_iff_exists.mp (slice_is_some.mpr hb)
  have hbytes : read.toList = read'.toList := by
    rw [slice_list hread, slice_list hread']
    refine List.ext_getElem? fun i => ?_
    rw [List.getElem?_take, List.getElem?_take]
    split
    · rename_i hi
      rw [List.getElem?_drop, List.getElem?_drop, ← byte_at, ← byte_at]
      exact h _ (Nat.le_add_right _ _) (Nat.add_lt_add_left hi _)
    · rfl
  rw [hread, hread', Vector.toList_inj.mp hbytes]

end

variable {fingerprintOf : ByteArray → Fingerprint} {v w : View}

/-- The signed part of an accepted buffer determines the rest of it. -/
theorem View.Heads.buffer_eq (h : v.Heads fingerprintOf) :
    v.buffer = arrayOf (preamble v.fingerprint ++ (signedBytes v.buffer).data.toList) ∧
      v.fingerprint = fingerprintOf (signedBytes v.buffer) := by
  obtain ⟨first, hfirst, hmagic⟩ := Option.map_eq_some_iff.mp h.magic
  obtain ⟨stated, hstated, hversion⟩ := Option.map_eq_some_iff.mp h.version
  obtain ⟨reserved, hreserved, hzeros⟩ := Option.map_eq_some_iff.mp h.reserved
  have hsecond : stated.toList = bytesOf 2 Buffer.version := by
    have hbytes := bytes_of_number_of stated.toList
    rw [Vector.length_toList, hversion] at hbytes
    exact hbytes.symm
  have hsigned := h.signed
  rw [sliceFrom?, if_pos (Nat.le_trans (by decide) h.long), Option.map_some] at hsigned
  refine ⟨ByteArray.ext (Array.toList_inj.mp ?_), (Option.some.inj hsigned).symm⟩
  rw [array_of_to_list, signed_list, preamble, ← hmagic, ← hsecond, ← hzeros, slice_list hfirst,
    slice_list hstated, slice_list hreserved, slice_list h.fingerprint]
  have hsplit (l : Bytes) (n k : Nat) : (l.drop n).take k ++ l.drop (n + k) = l.drop n := by
    rw [← List.drop_drop, List.take_append_drop]
  simp only [List.append_assoc]
  rw [signedStart, hsplit _ 8 32, hsplit _ 6 2, hsplit _ 4 2, hsplit _ 0 4, List.drop_zero]

/-- Accepted buffers with the same signed part are the same. -/
theorem View.Heads.eq_of_signed (hv : v.Heads fingerprintOf) (hw : w.Heads fingerprintOf)
    (h : signedBytes v.buffer = signedBytes w.buffer) : v.buffer = w.buffer := by
  obtain ⟨hbuffer, hfingerprint⟩ := hv.buffer_eq
  obtain ⟨hbuffer', hfingerprint'⟩ := hw.buffer_eq
  rw [hbuffer, hbuffer', hfingerprint, hfingerprint', h]

/-- The header states the size, so bytes that are only added after the signed part are refused. -/
theorem View.Heads.signed_agree (hv : v.Heads fingerprintOf) (hw : w.Heads fingerprintOf)
    (h : AgreeOn w.buffer v.buffer signedStart v.buffer.size) :
    signedBytes w.buffer = signedBytes v.buffer := by
  have hlong := hv.long
  have hlong' := hw.long
  have hsize : w.buffer.size = v.buffer.size := by
    have hstated := hv.size
    have hstated' := hw.size
    simp only [headerSize] at hlong hlong'
    rw [numberAt?, slice_agree (b := v.buffer)
      (fun i hi hlast => h i (Nat.le_trans (by decide) hi) (by omega)) (by omega) (by omega),
      ← numberAt?, hstated] at hstated'
    exact (Option.some.inj hstated').symm
  refine ByteArray.ext (Array.toList_inj.mp (List.ext_getElem? fun i => ?_))
  rw [signed_list, signed_list, List.getElem?_drop, List.getElem?_drop, ← byte_at, ← byte_at]
  by_cases hi : signedStart + i < v.buffer.size
  · exact h _ (Nat.le_add_right _ _) hi
  · rw [getElem?_neg v.buffer _ hi, getElem?_neg w.buffer _ (by rwa [hsize])]

theorem View.Heads.fingerprint_agree (hv : v.Heads fingerprintOf) (hw : w.Heads fingerprintOf)
    (h : AgreeOn w.buffer v.buffer 8 signedStart) : w.fingerprint = v.fingerprint := by
  have hread := hw.fingerprint
  have hlong := hv.long
  have hlong' := hw.long
  simp only [headerSize] at hlong hlong'
  rw [slice_agree h (by omega) (by omega), hv.fingerprint] at hread
  exact congrArg Fingerprint.mk (Option.some.inj hread).symm

/-- Whatever is not accepted is refused for what it holds, by a check that keeps inside it. -/
theorem view_refused {b : ByteArray} {f : Failure} (h : view b fingerprintOf = .error f) :
    ∃ fault, f = .integrity fault ∧ fault.isPastEnd = false := by
  cases hview : view? b fingerprintOf with
  | ok v =>
    rw [view, hview] at h
    cases h
  | error fault =>
    rw [view, hview] at h
    cases h
    exact ⟨fault, rfl, view_inside b fingerprintOf fault hview⟩

/-- Two signed parts that differ under one fingerprint. -/
structure Collides (fingerprintOf : ByteArray → Fingerprint) (a b : ByteArray) : Prop where
  differ : signedBytes a ≠ signedBytes b
  sameFingerprint : fingerprintOf (signedBytes a) = fingerprintOf (signedBytes b)

/-- A written buffer that was changed and kept its fingerprint or all that it had from its signed part
on is refused, without a read past its end, unless the fingerprints of the signed parts collide. -/
theorem corruption_refused (d : Document) (fingerprintOf : ByteArray → Fingerprint)
    (b changed : ByteArray) (hwrite : write d fingerprintOf = .ok b) (hchanged : changed ≠ b)
    (hkept : AgreeOn changed b 8 signedStart ∨ AgreeOn changed b signedStart b.size)
    (hdistinct : ¬Collides fingerprintOf changed b) :
    ∃ fault, view changed fingerprintOf = .error (.integrity fault) ∧
      fault.isPastEnd = false := by
  cases hview : view changed fingerprintOf with
  | error f =>
    obtain ⟨fault, rfl, hinside⟩ := view_refused hview
    exact ⟨fault, rfl, hinside⟩
  | ok w =>
    obtain ⟨rfl, hw, -⟩ := view_ok.mp hview
    obtain ⟨hbuffer, hv, -⟩ := view_ok.mp (view_written hwrite)
    subst hbuffer
    have hdiffer : signedBytes w.buffer ≠ signedBytes (writtenView d fingerprintOf).buffer :=
      fun hsame => hchanged (hw.eq_of_signed hv hsame)
    refine absurd ⟨hdiffer, ?_⟩ hdistinct
    rcases hkept with hfingerprint | hsigned
    · rw [← hw.buffer_eq.2, ← hv.buffer_eq.2, hv.fingerprint_agree hw hfingerprint]
    · exact absurd (hv.signed_agree hw hsigned) hdiffer

section Example

/-- A fingerprint that only the sum of the bytes goes into. -/
def checksum (content : ByteArray) : Fingerprint :=
  ⟨Vector.replicate 32 content.data.toList.sum⟩

def tally : Document where
  context := ⟨[("n", .int 7)], by decide⟩
  sections := []

/-- The buffer of the tally, with its number changed. -/
def changedTally : ByteArray :=
  arrayOf ((bufferOf tally checksum).data.toList.set 88 8)

theorem corruption_refused_number :
    write tally checksum = .ok (bufferOf tally checksum) ∧ changedTally ≠ bufferOf tally checksum ∧
      AgreeOn changedTally (bufferOf tally checksum) 8 signedStart ∧
      ¬Collides checksum changedTally (bufferOf tally checksum) ∧
      ∃ fault, view changedTally checksum = .error (.integrity fault) ∧ fault.isPastEnd = false := by
  have hwrite : write tally checksum = .ok (bufferOf tally checksum) :=
    write_ok.mpr ⟨by decide, by decide, rfl⟩
  have hdiffer :
      checksum (signedBytes changedTally) ≠ checksum (signedBytes (bufferOf tally checksum)) := by
    decide +kernel
  have hchanged : changedTally ≠ bufferOf tally checksum :=
    fun h => hdiffer (congrArg (fun b => checksum (signedBytes b)) h)
  have hkept : AgreeOn changedTally (bufferOf tally checksum) 8 signedStart := by
    intro i _ hlast
    rw [byte_at, byte_at, changedTally, array_of_to_list, List.getElem?_set_ne]
    simp only [signedStart] at hlast
    omega
  have hdistinct : ¬Collides checksum changedTally (bufferOf tally checksum) :=
    fun h => hdiffer h.sameFingerprint
  exact ⟨hwrite, hchanged, hkept, hdistinct, corruption_refused tally checksum
    (bufferOf tally checksum) changedTally hwrite hchanged (.inl hkept) hdistinct⟩

end Example

end DocForms.Buffer
