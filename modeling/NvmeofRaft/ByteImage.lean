import Mathlib.Algebra.BigOperators.Group.List.Basic
import Mathlib.Algebra.CharZero.Defs
import Mathlib.Algebra.Ring.Nat
import Mathlib.Data.Nat.Cast.Order.Basic

namespace NvmeofRaft

/-!
# Byte images

A byte image is the contents of a file or device seen as a total function from
byte offsets to bytes.  The module gives block writes, range zeroing and the
fixed-width little-endian encoding, with the read-over-write facts that
clients of an image need.
-/

/-- The contents of a file, one byte for every offset. -/
abbrev ByteImage := Nat → UInt8

namespace ByteImage

/-- The image of an empty or freshly zeroed file. -/
def zeros : ByteImage :=
  fun _ => 0

/-- Overwrite the bytes from `offset` on with `data`. -/
def write
    (image : ByteImage)
    (offset : Nat)
    (data : List UInt8) :
    ByteImage :=
  fun position =>
    if offset ≤ position ∧ position < offset + data.length then
      data.getD (position - offset) 0
    else
      image position

/-- Make the first `length` bytes read back as zeros. -/
def zeroRange
    (image : ByteImage)
    (length : Nat) :
    ByteImage :=
  fun position =>
    if position < length then 0 else image position

/-- Read `length` bytes from `offset` on. -/
def read
    (image : ByteImage)
    (offset length : Nat) :
    List UInt8 :=
  (List.range length).map fun position => image (offset + position)

/-- A write leaves every byte below its offset alone. -/
theorem write_of_lt
    {image : ByteImage}
    {offset position : Nat}
    {data : List UInt8}
    (below : position < offset) :
    image.write offset data position = image position := by
  have outside :
      ¬ (offset ≤ position ∧ position < offset + data.length) := by
    omega
  simp only [write, outside, ↓reduceIte]

/-- A write leaves every byte behind its end alone. -/
theorem write_of_ge
    {image : ByteImage}
    {offset position : Nat}
    {data : List UInt8}
    (behind : offset + data.length ≤ position) :
    image.write offset data position = image position := by
  have outside :
      ¬ (offset ≤ position ∧ position < offset + data.length) := by
    omega
  simp only [write, outside, ↓reduceIte]

/-- A write at offset zero is read back inside the written length. -/
theorem write_zero_of_lt
    {image : ByteImage}
    {position : Nat}
    {data : List UInt8}
    (inside : position < data.length) :
    image.write 0 data position = data.getD position 0 := by
  simp [write, inside]

@[simp] theorem write_nil
    (image : ByteImage)
    (offset : Nat) :
    image.write offset [] = image := by
  funext position
  have outside : ¬ (offset ≤ position ∧ position < offset + 0) := by
    omega
  simp only [write, List.length_nil, outside, ↓reduceIte]

/-- Two writes in a row are one write of both blocks. -/
theorem write_append
    (image : ByteImage)
    (offset : Nat)
    (first second : List UInt8) :
    image.write offset (first ++ second) =
      (image.write offset first).write (offset + first.length) second := by
  funext position
  simp only [write, List.length_append, List.getD_eq_getElem?_getD]
  by_cases before : position < offset + first.length
  · have notSecond :
        ¬ (offset + first.length ≤ position ∧
          position < offset + first.length + second.length) := by
      omega
    rw [if_neg notSecond]
    by_cases inside : offset ≤ position
    · rw [if_pos (by omega), if_pos (by omega),
        List.getElem?_append_left (by omega)]
    · rw [if_neg (by omega), if_neg (by omega)]
  · have notFirst :
        ¬ (offset ≤ position ∧ position < offset + first.length) := by
      omega
    rw [if_neg notFirst]
    by_cases inside : position < offset + (first.length + second.length)
    · rw [if_pos (by omega), if_pos (by omega),
        List.getElem?_append_right (by omega), Nat.sub_sub]
    · rw [if_neg (by omega), if_neg (by omega)]

@[simp] theorem length_read
    (image : ByteImage)
    (offset length : Nat) :
    (image.read offset length).length = length := by
  simp only [read, List.length_map, List.length_range]

theorem read_congr
    {first second : ByteImage}
    {offset length : Nat}
    (same :
      ∀ position,
        offset ≤ position →
        position < offset + length →
        first position = second position) :
    first.read offset length = second.read offset length := by
  apply List.map_congr_left
  intro position member
  have inside : position < length := List.mem_range.mp member
  exact same _ (Nat.le_add_right _ _) (Nat.add_lt_add_left inside offset)

/-- A read is two reads one after the other. -/
theorem read_add
    (image : ByteImage)
    (offset first second : Nat) :
    image.read offset (first + second) =
      image.read offset first ++ image.read (offset + first) second := by
  simp only [read, List.range_add, List.map_append, List.map_map]
  congr 1
  apply List.map_congr_left
  intro position _
  simp only [Function.comp_apply, Nat.add_assoc]

/-- A part of what is read is a read of its own. -/
theorem drop_take_read
    {image : ByteImage}
    {skipped length whole : Nat}
    (offset : Nat)
    (inside : skipped + length ≤ whole) :
    ((image.read offset whole).drop skipped).take length =
      image.read (offset + skipped) length := by
  obtain ⟨rest, rfl⟩ := Nat.exists_eq_add_of_le inside
  rw [Nat.add_assoc, read_add, List.drop_left' (length_read _ _ _), read_add,
    List.take_left' (length_read _ _ _)]

/-- A write is read back. -/
theorem read_write_self
    (image : ByteImage)
    (offset : Nat)
    (data : List UInt8) :
    (image.write offset data).read offset data.length = data := by
  apply List.ext_getElem
  · rw [length_read]
  · intro position _ inside
    simp only [read, List.getElem_map, List.getElem_range, write]
    rw [if_pos (by omega), Nat.add_sub_cancel_left,
      List.getD_eq_getElem?_getD, List.getElem?_eq_getElem inside]
    rfl

/-- Reading below the offset of a write reads the old bytes. -/
theorem read_write_of_le
    {image : ByteImage}
    {length offset : Nat}
    {data : List UInt8}
    (above : length ≤ offset) :
    (image.write offset data).read 0 length = image.read 0 length := by
  apply List.map_congr_left
  intro position member
  have below : position < length := List.mem_range.mp member
  exact write_of_lt (by omega)

/-- The first part of a write at offset zero is read back. -/
theorem read_write_append
    {image : ByteImage}
    (first rest : List UInt8) :
    (image.write 0 (first ++ rest)).read 0 first.length = first := by
  apply List.ext_getElem
  · simp [read]
  · intro position _ inside
    simp only [read, List.getElem_map, List.getElem_range, Nat.zero_add]
    rw [write_zero_of_lt (by rw [List.length_append]; omega)]
    rw [List.getD_eq_getElem?_getD, List.getElem?_append_left inside]
    simp [inside]

end ByteImage

/-- The eight bytes of a 64-bit word, least significant first. -/
def putU64Le (value : Nat) : List UInt8 :=
  (List.range 8).map fun position => UInt8.ofNat (value >>> (8 * position))

/-- Read a 64-bit word from eight bytes, least significant first. -/
def getU64Le (bytes : List UInt8) : Nat :=
  ((List.range 8).map fun position =>
    (bytes.getD position 0).toNat <<< (8 * position)).sum

@[simp] theorem length_putU64Le
    (value : Nat) :
    (putU64Le value).length = 8 := by
  simp [putU64Le]

/-- The low bytes of a word add up to its remainder. -/
theorem sum_bytes
    (value count : Nat) :
    ((List.range count).map fun position =>
      value / 2 ^ (8 * position) % 256 * 2 ^ (8 * position)).sum =
        value % 2 ^ (8 * count) := by
  induction count with
  | zero =>
      exact (Nat.mod_one value).symm
  | succ count inductionHypothesis =>
      have next : (2 : Nat) ^ (8 * (count + 1)) = 2 ^ (8 * count) * 256 := by
        rw [Nat.mul_succ, Nat.pow_add]
      rw [List.range_succ, List.map_append, List.sum_append,
        inductionHypothesis, next, Nat.mod_mul, Nat.mul_comm (2 ^ _)]
      rfl

/-- A 64-bit word is read back from its eight bytes. -/
theorem getU64Le_putU64Le
    {value : Nat}
    (fits : value < 2 ^ 64) :
    getU64Le (putU64Le value) = value := by
  have bytes :
      ∀ position ∈ List.range 8,
        ((putU64Le value).getD position 0).toNat <<< (8 * position) =
          value / 2 ^ (8 * position) % 256 * 2 ^ (8 * position) := by
    intro position member
    have inside : position < (putU64Le value).length := by
      rw [length_putU64Le]
      exact List.mem_range.mp member
    have byte :
        (putU64Le value)[position] =
          UInt8.ofNat (value >>> (8 * position)) := by
      simp only [putU64Le, List.getElem_map, List.getElem_range]
    rw [List.getD_eq_getElem?_getD, List.getElem?_eq_getElem inside, byte,
      Option.getD_some, UInt8.toNat_ofNat', Nat.shiftLeft_eq,
      Nat.shiftRight_eq_div_pow]
  rw [getU64Le, List.map_congr_left bytes, sum_bytes]
  exact Nat.mod_eq_of_lt fits

/-- A range of zero bytes decodes to zero. -/
theorem getU64Le_eq_zero
    {bytes : List UInt8}
    (zero : ∀ byte, byte ∈ bytes → byte = 0) :
    getU64Le bytes = 0 := by
  unfold getU64Le
  apply List.sum_eq_zero
  intro word member
  obtain ⟨position, _, rfl⟩ := List.mem_map.mp member
  have byteZero : bytes.getD position 0 = 0 := by
    rw [List.getD_eq_getElem?_getD]
    cases lookup : bytes[position]? with
    | none =>
        rfl
    | some byte =>
        exact zero byte (List.mem_of_getElem? lookup)
  rw [byteZero]
  simp

end NvmeofRaft
