import DocForms.Buffer.Bytes
import Mathlib.Algebra.BigOperators.Group.List.Defs
import Mathlib.Algebra.Order.Ring.Nat
import Mathlib.Data.List.Nodup
import Mathlib.Data.UInt

namespace DocForms.Buffer

theorem length_bytes_of (count n : Nat) : (bytesOf count n).length = count := by
  induction count generalizing n with
  | zero => rfl
  | succ count ih => rw [bytesOf, List.length_cons, ih]

/-- Bytes stand for the number they were made of, if they are enough for it. -/
theorem number_of_bytes_of {count n : Nat} (h : n < 256 ^ count) :
    numberOf (bytesOf count n) = n := by
  induction count generalizing n with
  | zero =>
    rw [Nat.pow_zero] at h
    simp only [bytesOf, numberOf]
    omega
  | succ count ih =>
    have hdiv : n / 256 < 256 ^ count := by
      apply Nat.div_lt_of_lt_mul
      rwa [Nat.pow_succ, Nat.mul_comm] at h
    have hlow : (UInt8.ofNat (n % 256)).toNat = n % 256 := by
      rw [UInt8.toNat_ofNat', Nat.mod_mod]
    rw [bytesOf, numberOf, ih hdiv, hlow]
    exact Nat.mod_add_div n 256

theorem number_of_lt (bytes : Bytes) : numberOf bytes < 256 ^ bytes.length := by
  induction bytes with
  | nil => exact Nat.one_pos
  | cons b bs ih =>
    have hb := b.toNat_lt
    rw [numberOf, List.length_cons, Nat.pow_succ]
    omega

theorem number_at_lt {b : ByteArray} {position count n : Nat}
    (h : numberAt? b position count = some n) : n < 256 ^ count := by
  obtain ⟨bytes, _, rfl⟩ := Option.map_eq_some_iff.mp h
  have hlt := number_of_lt bytes.toList
  rwa [Vector.length_toList] at hlt

/-- The buffer has the bytes at the position. -/
def Holds (b : ByteArray) (position : Nat) (bytes : Bytes) : Prop :=
  ∃ before after, b.data.toList = before ++ bytes ++ after ∧ before.length = position

variable {b : ByteArray} {position : Nat} {bytes : Bytes}

theorem array_of_to_list (bytes : Bytes) : (arrayOf bytes).data.toList = bytes := rfl

theorem holds_whole (before bytes after : Bytes) :
    Holds (arrayOf (before ++ bytes ++ after)) before.length bytes :=
  ⟨before, after, rfl, rfl⟩

theorem Holds.left {more : Bytes} (h : Holds b position (bytes ++ more)) :
    Holds b position bytes := by
  obtain ⟨before, after, hb, hp⟩ := h
  exact ⟨before, more ++ after, by simp [hb], hp⟩

theorem Holds.right {more : Bytes} (h : Holds b position (bytes ++ more)) :
    Holds b (position + bytes.length) more := by
  obtain ⟨before, after, hb, rfl⟩ := h
  exact ⟨before ++ bytes, after, by simp [hb], by simp⟩

theorem Holds.room (h : Holds b position bytes) : position + bytes.length ≤ b.size := by
  obtain ⟨before, after, hb, rfl⟩ := h
  rw [← ByteArray.size_data, ← Array.length_toList, hb]
  simp only [List.length_append]
  omega

/-- What the buffer has at a position is read there. -/
theorem Holds.slice {count : Nat} (h : Holds b position bytes) (hc : bytes.length = count) :
    ∃ read, slice? b position count = some read ∧ read.toList = bytes := by
  subst hc
  have hroom := h.room
  obtain ⟨before, after, hb, rfl⟩ := h
  refine ⟨_, dif_pos hroom, ?_⟩
  change (b.extract before.length (before.length + bytes.length)).data.toList = bytes
  rw [ByteArray.data_extract, Array.toList_extract, hb, List.extract_eq_take_drop]
  simp

theorem Holds.slice_bytes {count : Nat} (h : Holds b position bytes) (hc : bytes.length = count) :
    (slice? b position count).map Vector.toList = some bytes := by
  obtain ⟨read, hread, hbytes⟩ := h.slice hc
  rw [hread, Option.map_some, hbytes]

theorem Holds.number {count n : Nat} (h : Holds b position (bytesOf count n))
    (hn : n < 256 ^ count) : numberAt? b position count = some n := by
  obtain ⟨read, hread, hbytes⟩ := h.slice (length_bytes_of count n)
  rw [numberAt?, hread, Option.map_some, hbytes, number_of_bytes_of hn]

theorem Holds.first {byte : UInt8} (h : Holds b position (byte :: bytes)) :
    b[position]? = some byte := by
  have hroom := h.room
  obtain ⟨before, after, hb, rfl⟩ := h
  have hlt : before.length < b.size := by
    rw [List.length_cons] at hroom
    omega
  rw [getElem?_pos b _ hlt, ByteArray.getElem_eq_getElem_data, ← Array.getElem_toList]
  simp [hb]

/-- A text is read back from its bytes. -/
theorem text_of_bytes (s : String) : textOf? (bytesOfText s) = some s := by
  have harray : arrayOf (bytesOfText s) = s.toByteArray := rfl
  rw [textOf?, harray, String.fromUTF8?]
  exact dif_pos s.isValidUTF8

end DocForms.Buffer
