import Mathlib.Data.List.Basic

namespace NvmeofRaft

/-!
# The wire format of messages

Base-128 varints and the fields made of them, as generated serialisers write
them: a scalar field is left out when it is zero, and a message in a message is
its length and its bytes.  How long each of them gets is all that is proved.
-/

namespace ProtoWire

/-- Seven bits a byte, the lowest first; the bound is the number of bytes. -/
def varintBytes : Nat → Nat → List UInt8
  | 0, _ =>
      []
  | bound + 1, value =>
      if value < 128 then
        [UInt8.ofNat value]
      else
        UInt8.ofNat (value % 128 + 128) :: varintBytes bound (value / 128)

/-- The varint of a 64-bit word, which takes ten bytes at most. -/
def varint (value : UInt64) : List UInt8 :=
  varintBytes 10 value.toNat

/-- The tag of a field: its number and its wire type. -/
def tag (number wireType : Nat) : List UInt8 :=
  varint (UInt64.ofNat (number * 8 + wireType))

/-- A `uint64` field. -/
def uint64Field
    (number : Nat)
    (value : UInt64) :
    List UInt8 :=
  if value = 0 then [] else tag number 0 ++ varint value

/-- An `int32` field, sign-extended to 64 bits. -/
def int32Field
    (number : Nat)
    (value : Int32) :
    List UInt8 :=
  uint64Field number value.toInt64.toUInt64

/-- An `int64` field. -/
def int64Field
    (number : Nat)
    (value : Int64) :
    List UInt8 :=
  uint64Field number value.toUInt64

/-- A `bool` field. -/
def boolField
    (number : Nat)
    (value : Bool) :
    List UInt8 :=
  uint64Field number (if value then 1 else 0)

/-- A message as a field, present also when it is empty. -/
def messageField
    (number : Nat)
    (message : List UInt8) :
    List UInt8 :=
  tag number 2 ++ varint (UInt64.ofNat message.length) ++ message

/-- A repeated `uint64` field, packed. -/
def packedField
    (number : Nat)
    (values : List UInt64) :
    List UInt8 :=
  if values = [] then [] else messageField number (values.flatMap varint)

/-- A `string` field. -/
def textField
    (number : Nat)
    (text : List UInt8) :
    List UInt8 :=
  if text = [] then [] else messageField number text

theorem length_varintBytes_le
    (bound value : Nat) :
    (varintBytes bound value).length ≤ bound := by
  induction bound generalizing value with
  | zero =>
      exact Nat.le_refl _
  | succ bound inductionHypothesis =>
      rw [varintBytes]
      split
      · exact Nat.succ_le_succ (Nat.zero_le bound)
      · exact Nat.succ_le_succ (inductionHypothesis _)

theorem length_varint
    (value : UInt64) :
    1 ≤ (varint value).length ∧ (varint value).length ≤ 10 := by
  refine ⟨?_, length_varintBytes_le 10 value.toNat⟩
  rw [varint, varintBytes]
  split
  · exact Nat.le_refl _
  · exact Nat.succ_le_succ (Nat.zero_le _)

/-- Numbers of seven bits take one byte. -/
theorem length_varint_of_lt
    {value : Nat}
    (small : value < 128) :
    (varint (UInt64.ofNat value)).length = 1 := by
  have same : (UInt64.ofNat value).toNat = value :=
    Nat.mod_eq_of_lt (by omega)
  rw [varint, varintBytes, same, if_pos small]
  rfl

theorem length_uint64Field_le
    {number : Nat}
    (small : number < 16)
    (value : UInt64) :
    (uint64Field number value).length ≤ 11 := by
  unfold uint64Field
  split
  · exact Nat.zero_le _
  · have bound := (length_varint value).2
    rw [List.length_append, tag, length_varint_of_lt (by omega)]
    omega

theorem length_int64Field_le
    {number : Nat}
    (small : number < 16)
    (value : Int64) :
    (int64Field number value).length ≤ 11 :=
  length_uint64Field_le small value.toUInt64

theorem length_boolField_le
    {number : Nat}
    (small : number < 16)
    (value : Bool) :
    (boolField number value).length ≤ 11 :=
  length_uint64Field_le small (if value then 1 else 0)

/-- A scalar field that is not zero takes its tag and a byte at least. -/
theorem le_length_uint64Field
    {number : Nat}
    (small : number < 16)
    {value : UInt64}
    (some : value ≠ 0) :
    2 ≤ (uint64Field number value).length := by
  have bound := (length_varint value).1
  rw [uint64Field, if_neg some, List.length_append, tag,
    length_varint_of_lt (by omega)]
  omega

/-- A short message takes its tag and a length byte on top. -/
theorem length_messageField
    {number : Nat}
    {message : List UInt8}
    (small : number < 16)
    (short : message.length < 128) :
    (messageField number message).length = message.length + 2 := by
  rw [messageField, List.length_append, List.length_append, tag,
    length_varint_of_lt (by omega), length_varint_of_lt short]
  omega

end ProtoWire

end NvmeofRaft
