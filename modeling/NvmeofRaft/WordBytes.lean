import Mathlib.Data.List.Basic
import Mathlib.Tactic.Ring

namespace NvmeofRaft

/-!
# Words as bytes

The bytes of a natural number in a word of fixed width, least significant
first, and the number that a list of bytes stands for.  Reversing the bytes
gives the other byte order.
-/

/-- The bytes of a word of `width` bytes, least significant first. -/
def leBytes : Nat → Nat → List UInt8
  | 0, _ =>
      []
  | width + 1, value =>
      UInt8.ofNat value :: leBytes width (value / 256)

/-- The number whose bytes these are, least significant first. -/
def ofLeBytes : List UInt8 → Nat
  | [] =>
      0
  | byte :: rest =>
      byte.toNat + 256 * ofLeBytes rest

@[simp] theorem length_leBytes
    (width value : Nat) :
    (leBytes width value).length = width := by
  induction width generalizing value with
  | zero =>
      rfl
  | succ width inductionHypothesis =>
      simp [leBytes, inductionHypothesis]

/-- A word keeps the low bytes of a number. -/
theorem ofLeBytes_leBytes
    (width value : Nat) :
    ofLeBytes (leBytes width value) = value % 256 ^ width := by
  induction width generalizing value with
  | zero =>
      simp [leBytes, ofLeBytes, Nat.mod_one]
  | succ width inductionHypothesis =>
      have split :
          value % (256 * 256 ^ width) =
            value % 256 + 256 * (value / 256 % 256 ^ width) :=
        Nat.mod_mul
      simp only [leBytes, ofLeBytes, inductionHypothesis, UInt8.toNat_ofNat',
        Nat.pow_succ']
      exact split.symm

/-- A number that fits into the word is read back. -/
theorem ofLeBytes_leBytes_of_lt
    {width value : Nat}
    (fits : value < 256 ^ width) :
    ofLeBytes (leBytes width value) = value := by
  rw [ofLeBytes_leBytes, Nat.mod_eq_of_lt fits]

/-- Bytes are the word of the number they stand for. -/
theorem leBytes_ofLeBytes
    (bytes : List UInt8) :
    leBytes bytes.length (ofLeBytes bytes) = bytes := by
  induction bytes with
  | nil =>
      rfl
  | cons byte rest inductionHypothesis =>
      have small : byte.toNat < 256 := byte.toNat_lt
      have low : UInt8.ofNat (byte.toNat + 256 * ofLeBytes rest) = byte := by
        apply UInt8.toNat_inj.mp
        rw [UInt8.toNat_ofNat']
        omega
      have high : (byte.toNat + 256 * ofLeBytes rest) / 256 = ofLeBytes rest := by
        omega
      simp only [List.length_cons, leBytes, ofLeBytes, low, high,
        inductionHypothesis]

/-- The number that bytes stand for fits into as many bytes. -/
theorem ofLeBytes_lt
    (bytes : List UInt8) :
    ofLeBytes bytes < 256 ^ bytes.length := by
  induction bytes with
  | nil =>
      simp [ofLeBytes]
  | cons byte rest inductionHypothesis =>
      have small : byte.toNat < 256 := byte.toNat_lt
      rw [List.length_cons, Nat.pow_succ', ofLeBytes]
      omega

/-- The bytes of two words behind each other. -/
theorem leBytes_append
    (low high value : Nat) :
    leBytes low value ++ leBytes high (value / 256 ^ low) =
      leBytes (low + high) value := by
  induction low generalizing value with
  | zero =>
      simp [leBytes]
  | succ low inductionHypothesis =>
      rw [Nat.succ_add, leBytes, leBytes, List.cons_append,
        ← inductionHypothesis, Nat.pow_succ', Nat.div_div_eq_div_mul]

/-- Bytes behind others count from their place on. -/
theorem ofLeBytes_append
    (low high : List UInt8) :
    ofLeBytes (low ++ high) =
      ofLeBytes low + 256 ^ low.length * ofLeBytes high := by
  induction low with
  | nil =>
      simp [ofLeBytes]
  | cons byte rest inductionHypothesis =>
      rw [List.cons_append, ofLeBytes, ofLeBytes, inductionHypothesis,
        List.length_cons, Nat.pow_succ']
      ring

/-- The number whose bytes are those of the value in reverse order. -/
def reverseBytes (width value : Nat) : Nat :=
  ofLeBytes (leBytes width value).reverse

theorem reverseBytes_lt
    (width value : Nat) :
    reverseBytes width value < 256 ^ width := by
  have bound := ofLeBytes_lt (leBytes width value).reverse
  rwa [List.length_reverse, length_leBytes] at bound

/-- The bytes of the reversed number are the reversed bytes. -/
theorem leBytes_reverseBytes
    (width value : Nat) :
    leBytes width (reverseBytes width value) =
      (leBytes width value).reverse := by
  have back := leBytes_ofLeBytes (leBytes width value).reverse
  rwa [List.length_reverse, length_leBytes] at back

/-- Reversing twice gives back a number that fits. -/
theorem reverseBytes_reverseBytes
    {width value : Nat}
    (fits : value < 256 ^ width) :
    reverseBytes width (reverseBytes width value) = value := by
  rw [reverseBytes, leBytes_reverseBytes, List.reverse_reverse,
    ofLeBytes_leBytes_of_lt fits]

/-- A number that was reversed for the way is read back at its end. -/
theorem reverseBytes_of_memory
    {width value : Nat}
    (fits : value < 256 ^ width) :
    reverseBytes width
        (ofLeBytes (leBytes width (reverseBytes width value))) = value := by
  rw [ofLeBytes_leBytes_of_lt (reverseBytes_lt width value),
    reverseBytes_reverseBytes fits]

/-- A wide number is reversed by exchanging its reversed halves. -/
theorem reverseBytes_add
    (low high value : Nat) :
    reverseBytes (low + high) value =
      reverseBytes high (value / 256 ^ low) +
        256 ^ high * reverseBytes low value := by
  rw [reverseBytes, ← leBytes_append, List.reverse_append, ofLeBytes_append,
    List.length_reverse, length_leBytes, reverseBytes, reverseBytes]

/-- Only the low bytes of a number are reversed. -/
theorem reverseBytes_mod
    (width value : Nat) :
    reverseBytes width (value % 256 ^ width) = reverseBytes width value := by
  have low := leBytes_ofLeBytes (leBytes width value)
  rw [length_leBytes, ofLeBytes_leBytes] at low
  rw [reverseBytes, low, reverseBytes]

end NvmeofRaft
