import Mathlib.Algebra.Order.Ring.Nat
import NvmeofRaft.ProtoWire

namespace NvmeofRaft

/-!
# Reading messages

The loop of the generated parsers.  What it calls of the protobuf runtime is a
parameter, of which only the documented format is assumed: the runtime reads
what `ProtoWire` writes.  Fields that are read one behind the other compose, so
a parser reads a message if it reads each of its fields.
-/

namespace ProtoWire

/--
What the parsers call of the runtime.  Each function also gives the bytes
behind those that it has read.
-/
structure Reader where
  /-- `ReadTag`. -/
  readTag : List UInt8 → Option (Nat × List UInt8)
  /-- `ReadVarint64`. -/
  readVarint64 : List UInt8 → Option (UInt64 × List UInt8)
  /-- A length and as many bytes, as `ParseMessage` reads them. -/
  readSized : List UInt8 → Option (List UInt8 × List UInt8)
  /-- `VerifyUTF8`. -/
  verifyUtf8 : List UInt8 → Bool
  /-- `UnknownFieldParse`, behind the tag. -/
  skip : Nat → List UInt8 → Option (List UInt8)

/-- The numbers of fields. -/
def Numbered (number : Nat) : Prop :=
  0 < number ∧ number < 2 ^ 29

instance (number : Nat) : Decidable (Numbered number) :=
  inferInstanceAs (Decidable (_ ∧ _))

/-- A length that the runtime takes. -/
def Short (bytes : List UInt8) : Prop :=
  bytes.length < 2 ^ 31 - 16

instance (bytes : List UInt8) : Decidable (Short bytes) :=
  inferInstanceAs (Decidable (_ < _))

/-- The runtime reads what is written in the documented format. -/
structure Reader.Documented (reader : Reader) : Prop where
  tags :
    ∀ number wireType rest,
      Numbered number →
      wireType < 8 →
      reader.readTag (tag number wireType ++ rest) =
        some (number * 8 + wireType, rest)
  varints :
    ∀ value rest, reader.readVarint64 (varint value ++ rest) = some (value, rest)
  sized :
    ∀ bytes rest,
      Short bytes →
      reader.readSized
          (varint (UInt64.ofNat bytes.length) ++ (bytes ++ rest)) =
        some (bytes, rest)
  ascii :
    ∀ bytes : List UInt8,
      (∀ byte ∈ bytes, byte.toNat < 128) → reader.verifyUtf8 bytes = true

section

variable {σ : Type}

/-- What a parser does behind a tag. -/
abbrev Field (σ : Type) :=
  σ → List UInt8 → Option (σ × List UInt8)

/-- The cases of a parser: what it does behind the tags of its fields. -/
abbrev Fields (σ : Type) :=
  Nat → Option (Field σ)

namespace Reader

/-- A `uint64` field. -/
def uint64
    (reader : Reader)
    (set : σ → UInt64 → σ) :
    Field σ :=
  fun state bytes =>
    (reader.readVarint64 bytes).map fun (value, rest) => (set state value, rest)

/-- An `int64` field. -/
def int64
    (reader : Reader)
    (set : σ → Int64 → σ) :
    Field σ :=
  reader.uint64 fun state value => set state value.toInt64

/-- An `int32` field: `ReadVarint32` keeps the lower half of the number. -/
def int32
    (reader : Reader)
    (set : σ → Int32 → σ) :
    Field σ :=
  reader.uint64 fun state value => set state value.toUInt32.toInt32

/-- A `bool` field. -/
def bool
    (reader : Reader)
    (set : σ → Bool → σ) :
    Field σ :=
  reader.uint64 fun state value => set state (value != 0)

/-- A field with a message. -/
def message
    {μ : Type}
    (reader : Reader)
    (parseMessage : List UInt8 → Option μ)
    (add : σ → μ → σ) :
    Field σ :=
  fun state bytes =>
    (reader.readSized bytes).bind fun (content, rest) =>
      (parseMessage content).map fun message => (add state message, rest)

/-- The loop of `PackedUInt64Parser`, for a number of turns. -/
def readVarints
    (reader : Reader) :
    Nat → List UInt8 → Option (List UInt64)
  | _, [] =>
      some []
  | 0, _ :: _ =>
      none
  | turns + 1, byte :: bytes =>
      (reader.readVarint64 (byte :: bytes)).bind fun (value, rest) =>
        (reader.readVarints turns rest).map (value :: ·)

/-- A packed field: its varints are added behind those that are there. -/
def packed
    (reader : Reader)
    (add : σ → List UInt64 → σ) :
    Field σ :=
  reader.message (fun content => reader.readVarints content.length content) add

/-- A `string` field. -/
def text
    (reader : Reader)
    (set : σ → List UInt8 → σ) :
    Field σ :=
  reader.message
    (fun content => if reader.verifyUtf8 content then some content else none)
    set

/-- One turn of the loop of `_InternalParse`. -/
def parseField
    (reader : Reader)
    (fields : Fields σ)
    (state : σ)
    (bytes : List UInt8) :
    Option (σ × List UInt8) :=
  (reader.readTag bytes).bind fun (tag, rest) =>
    match fields tag with
    | some field => field state rest
    | none =>
        -- a message that ends with such a tag has not ended with its bytes
        if tag = 0 ∨ tag % 8 = 4 then
          none
        else
          (reader.skip tag rest).map fun rest => (state, rest)

/-- The loop of `_InternalParse`, for a number of turns. -/
def parseFields
    (reader : Reader)
    (fields : Fields σ) :
    Nat → σ → List UInt8 → Option σ
  | _, state, [] =>
      some state
  | 0, _, _ :: _ =>
      none
  | turns + 1, state, byte :: bytes =>
      (reader.parseField fields state (byte :: bytes)).bind
        fun (state, rest) => reader.parseFields fields turns state rest

/-- `_InternalParse`; every turn reads a byte at least. -/
def parse
    (reader : Reader)
    (fields : Fields σ)
    (state : σ)
    (bytes : List UInt8) :
    Option σ :=
  reader.parseFields fields bytes.length state bytes

/-- `ParseFromArray` on a cleared message; the size of the array is an `int`. -/
def parseFromArray
    (reader : Reader)
    (fields : Fields σ)
    (cleared : σ)
    (bytes : List UInt8) :
    Option σ :=
  if bytes.length < 2 ^ 31 then reader.parse fields cleared bytes else none

/-- The parser reads the bytes, whatever is behind them. -/
def Reads
    (reader : Reader)
    (fields : Fields σ)
    (before : σ)
    (bytes : List UInt8)
    (after : σ) : Prop :=
  ∃ turns,
    turns ≤ bytes.length ∧
      ∀ more rest,
        reader.parseFields fields (turns + more) before (bytes ++ rest) =
          reader.parseFields fields more after rest

end Reader

section

variable {reader : Reader} {fields : Fields σ} {before after : σ}
variable {first second : List UInt8} {number : Nat}

/-- A parser that reads all bytes of a message parses it. -/
theorem Reader.Reads.parses
    (reads : reader.Reads fields before first after) :
    reader.parse fields before first = some after := by
  obtain ⟨turns, within, same⟩ := reads
  have whole := same (first.length - turns) []
  rw [Nat.add_sub_cancel' within, List.append_nil] at whole
  rw [Reader.parse, whole]
  cases first.length - turns <;> rfl

theorem Reader.parseFromArray_of_parses
    (parses : reader.parse fields before first = some after)
    (small : first.length < 2 ^ 31) :
    reader.parseFromArray fields before first = some after :=
  (if_pos small).trans parses

theorem Reader.Reads.nil
    (reader : Reader)
    (fields : Fields σ)
    (state : σ) :
    reader.Reads fields state [] state := by
  refine ⟨0, Nat.le_refl 0, fun more rest => ?_⟩
  rw [Nat.zero_add, List.nil_append]

/-- Fields are read one behind the other. -/
theorem Reader.Reads.append
    {middle : σ}
    (reads : reader.Reads fields before first middle)
    (further : reader.Reads fields middle second after) :
    reader.Reads fields before (first ++ second) after := by
  obtain ⟨turns, within, same⟩ := reads
  obtain ⟨furtherTurns, furtherWithin, furtherSame⟩ := further
  refine ⟨turns + furtherTurns, ?_, fun more rest => ?_⟩
  · rw [List.length_append]
    exact Nat.add_le_add within furtherWithin
  · rw [List.append_assoc, Nat.add_assoc, same, furtherSame]

/-- One turn reads one field. -/
theorem Reader.Reads.turn
    (nonempty : first ≠ [])
    (turn :
      ∀ rest,
        reader.parseField fields before (first ++ rest) = some (after, rest)) :
    reader.Reads fields before first after := by
  refine ⟨1, List.length_pos_of_ne_nil nonempty, fun more rest => ?_⟩
  obtain ⟨byte, bytes, rfl⟩ := List.exists_cons_of_ne_nil nonempty
  have here := turn rest
  rw [List.cons_append] at here ⊢
  rw [Nat.add_comm, Reader.parseFields, here, Option.bind_some]

theorem tag_ne_nil
    (number wireType : Nat) :
    tag number wireType ≠ [] :=
  List.ne_nil_of_length_pos (length_varint _).1

/-- The turn behind a tag that the parser knows. -/
theorem Reader.Documented.reads
    {field : Field σ}
    {wireType : Nat}
    {payload : List UInt8}
    (documented : reader.Documented)
    (numbered : Numbered number)
    (small : wireType < 8)
    (known : fields (number * 8 + wireType) = some field)
    (taken : ∀ rest, field before (payload ++ rest) = some (after, rest)) :
    reader.Reads fields before (tag number wireType ++ payload) after := by
  refine .turn ?_ fun rest => ?_
  · exact List.append_ne_nil_of_left_ne_nil (tag_ne_nil number wireType) _
  · rw [List.append_assoc, Reader.parseField,
      documented.tags _ _ _ numbered small, Option.bind_some]
    dsimp only
    rw [known]
    exact taken rest

/-- A scalar field is read, and its default where it is left out. -/
theorem Reader.Documented.reads_uint64
    {set : σ → UInt64 → σ}
    (documented : reader.Documented)
    (number : Nat)
    (numbered : Numbered number)
    (value : UInt64)
    (known : fields (number * 8) = some (reader.uint64 set))
    (default : set before 0 = before)
    (same : set before value = after) :
    reader.Reads fields before (uint64Field number value) after := by
  subst same
  unfold uint64Field
  split
  · rename_i zero
    rw [zero, default]
    exact .nil reader fields before
  · refine documented.reads numbered (by decide) known fun rest => ?_
    rw [Reader.uint64, documented.varints, Option.map_some]

theorem Reader.Documented.reads_int32
    {set : σ → Int32 → σ}
    (documented : reader.Documented)
    (number : Nat)
    (numbered : Numbered number)
    (value : Int32)
    (known : fields (number * 8) = some (reader.int32 set))
    (default : set before 0 = before)
    (same : set before value = after) :
    reader.Reads fields before (int32Field number value) after := by
  have lower :
      ∀ wide : Int64, wide.toUInt64.toUInt32.toInt32 = wide.toInt32 := by
    intro wide
    have narrow : 32 ≤ 64 := by decide
    refine Int32.toBitVec_inj.mp ?_
    exact (BitVec.signExtend_eq_setWidth_of_le _ narrow).symm
  refine documented.reads_uint64 number numbered _ known default ?_
  rw [lower, Int32.toInt32_toInt64]
  exact same

theorem Reader.Documented.reads_int64
    {set : σ → Int64 → σ}
    (documented : reader.Documented)
    (number : Nat)
    (numbered : Numbered number)
    (value : Int64)
    (known : fields (number * 8) = some (reader.int64 set))
    (default : set before 0 = before)
    (same : set before value = after) :
    reader.Reads fields before (int64Field number value) after := by
  refine documented.reads_uint64 number numbered _ known default ?_
  rw [Int64.toInt64_toUInt64]
  exact same

theorem Reader.Documented.reads_bool
    {set : σ → Bool → σ}
    (documented : reader.Documented)
    (number : Nat)
    (numbered : Numbered number)
    (value : Bool)
    (known : fields (number * 8) = some (reader.bool set))
    (default : set before false = before)
    (same : set before value = after) :
    reader.Reads fields before (boolField number value) after := by
  refine documented.reads_uint64 number numbered _ known default ?_
  cases value <;> exact same

/-- A message in a message is read as the message on its own is. -/
theorem Reader.Documented.reads_message
    {μ : Type}
    {parseMessage : List UInt8 → Option μ}
    {add : σ → μ → σ}
    {content : List UInt8}
    {message : μ}
    (documented : reader.Documented)
    (number : Nat)
    (numbered : Numbered number)
    (known :
      fields (number * 8 + 2) = some (reader.message parseMessage add))
    (short : Short content)
    (parsed : parseMessage content = some message) :
    reader.Reads fields before (messageField number content)
      (add before message) := by
  rw [messageField, List.append_assoc]
  refine documented.reads numbered (by decide) known fun rest => ?_
  rw [List.append_assoc, Reader.message, documented.sized _ _ short,
    Option.bind_some]
  dsimp only
  rw [parsed, Option.map_some]

/-- Repeated messages are added one behind the other. -/
theorem Reader.Documented.reads_messages
    {μ : Type}
    {parseMessage : List UInt8 → Option μ}
    {add : σ → μ → σ}
    {serialize : μ → List UInt8}
    (documented : reader.Documented)
    (number : Nat)
    (numbered : Numbered number)
    (known :
      fields (number * 8 + 2) = some (reader.message parseMessage add))
    (messages : List μ)
    (parsed :
      ∀ message ∈ messages,
        Short (serialize message) ∧
          parseMessage (serialize message) = some message)
    (before : σ) :
    reader.Reads fields before
      (messages.map fun message =>
        messageField number (serialize message)).flatten
      (messages.foldl add before) := by
  induction messages generalizing before with
  | nil =>
      exact .nil reader fields before
  | cons message messages inductionHypothesis =>
      obtain ⟨short, same⟩ := parsed message List.mem_cons_self
      exact .append
        (documented.reads_message number numbered known short same)
        (inductionHypothesis
          (fun other inside => parsed other (List.mem_cons_of_mem _ inside))
          _)

/-- Varints one behind the other are read one after the other. -/
theorem Reader.Documented.reads_varints
    (documented : reader.Documented)
    (values : List UInt64)
    (turns : Nat)
    (enough : values.length ≤ turns) :
    reader.readVarints turns (values.flatMap varint) = some values := by
  induction values generalizing turns with
  | nil =>
      cases turns <;> rfl
  | cons value values inductionHypothesis =>
      obtain ⟨turns, rfl⟩ :=
        Nat.exists_eq_add_of_le' (Nat.lt_of_lt_of_le (Nat.succ_pos _) enough)
      have rest :=
        inductionHypothesis turns (Nat.le_of_succ_le_succ enough)
      have read := documented.varints value (values.flatMap varint)
      obtain ⟨byte, bytes, same⟩ :=
        List.exists_cons_of_ne_nil
          (List.ne_nil_of_length_pos (length_varint value).1)
      rw [List.flatMap_cons]
      rw [same, List.cons_append] at read ⊢
      rw [Reader.readVarints, read, Option.bind_some]
      dsimp only
      rw [rest, Option.map_some]

/-- Every varint takes a byte at least. -/
theorem length_le_varints
    (values : List UInt64) :
    values.length ≤ (values.flatMap varint).length := by
  induction values with
  | nil =>
      exact Nat.le_refl 0
  | cons value values inductionHypothesis =>
      have first := (length_varint value).1
      rw [List.flatMap_cons, List.length_append, List.length_cons]
      omega

/-- The content of a field is no longer than the field. -/
theorem short_of_messageField
    {content bytes : List UInt8}
    (inside : (messageField number content).length ≤ bytes.length)
    (short : Short bytes) :
    Short content := by
  unfold Short at short ⊢
  rw [messageField, List.length_append] at inside
  omega

theorem short_of_packedField
    {values : List UInt64}
    {bytes : List UInt8}
    (inside : (packedField number values).length ≤ bytes.length)
    (short : Short bytes) :
    Short (values.flatMap varint) := by
  unfold packedField at inside
  split at inside
  · rename_i none
    rw [none]
    decide
  · exact short_of_messageField inside short

theorem short_of_textField
    {text bytes : List UInt8}
    (inside : (textField number text).length ≤ bytes.length)
    (short : Short bytes) :
    Short text := by
  unfold textField at inside
  split at inside
  · rename_i none
    rw [none]
    decide
  · exact short_of_messageField inside short

theorem Reader.Documented.reads_packed
    {add : σ → List UInt64 → σ}
    (documented : reader.Documented)
    (number : Nat)
    (numbered : Numbered number)
    (values : List UInt64)
    (known : fields (number * 8 + 2) = some (reader.packed add))
    (short : Short (values.flatMap varint))
    (default : add before [] = before)
    (same : add before values = after) :
    reader.Reads fields before (packedField number values) after := by
  subst same
  unfold packedField
  split
  · rename_i none
    rw [none, default]
    exact .nil reader fields before
  · exact documented.reads_message number numbered known short
      (documented.reads_varints values _ (length_le_varints values))

theorem Reader.Documented.reads_text
    {set : σ → List UInt8 → σ}
    (documented : reader.Documented)
    (number : Nat)
    (numbered : Numbered number)
    (text : List UInt8)
    (known : fields (number * 8 + 2) = some (reader.text set))
    (short : Short text)
    (ascii : ∀ byte ∈ text, byte.toNat < 128)
    (default : set before [] = before)
    (same : set before text = after) :
    reader.Reads fields before (textField number text) after := by
  subst same
  unfold textField
  split
  · rename_i none
    rw [none, default]
    exact .nil reader fields before
  · exact documented.reads_message number numbered known short
      (if_pos (documented.ascii text ascii))

end

end

/-- A varint of at most so many bytes. -/
def readVarint : Nat → List UInt8 → Option (Nat × List UInt8)
  | 0, _ =>
      none
  | _ + 1, [] =>
      none
  | bound + 1, byte :: rest =>
      if byte.toNat < 128 then
        some (byte.toNat, rest)
      else
        (readVarint bound rest).map fun (high, rest) =>
          (byte.toNat - 128 + 128 * high, rest)

/-- Bytes of a fixed number. -/
def dropExactly
    (count : Nat)
    (bytes : List UInt8) :
    Option (List UInt8) :=
  if count ≤ bytes.length then some (bytes.drop count) else none

/-- The length and the bytes behind it. -/
def readBytes (bytes : List UInt8) : Option (List UInt8 × List UInt8) :=
  (readVarint 5 bytes).bind fun (length, rest) =>
    if length < 2 ^ 31 - 16 ∧ length ≤ rest.length then
      some (rest.take length, rest.drop length)
    else
      none

/-- A runtime for messages without groups and with ASCII texts. -/
def plainReader : Reader where
  readTag bytes := readVarint 5 bytes
  readVarint64 bytes :=
    (readVarint 10 bytes).map fun (value, rest) => (UInt64.ofNat value, rest)
  readSized := readBytes
  verifyUtf8 bytes := bytes.all fun byte => byte.toNat < 128
  skip tag bytes :=
    match tag % 8 with
    | 0 => (readVarint 10 bytes).map Prod.snd
    | 1 => dropExactly 8 bytes
    | 2 => (readBytes bytes).map Prod.snd
    | 5 => dropExactly 4 bytes
    | _ => none

theorem readVarint_varintBytes
    {bound longer value : Nat}
    (within : bound ≤ longer)
    (fits : value < 128 ^ bound)
    (positive : 0 < bound)
    (rest : List UInt8) :
    readVarint bound (varintBytes longer value ++ rest) =
      some (value, rest) := by
  induction bound generalizing longer value with
  | zero =>
      exact absurd positive (Nat.lt_irrefl 0)
  | succ bound inductionHypothesis =>
      cases longer with
      | zero =>
          exact absurd within (Nat.not_succ_le_zero bound)
      | succ longer =>
          rw [varintBytes]
          split
          · rename_i small
            have byte : (UInt8.ofNat value).toNat = value :=
              Nat.mod_eq_of_lt (by omega)
            rw [List.singleton_append, readVarint, byte, if_pos small]
          · rename_i large
            have byte :
                (UInt8.ofNat (value % 128 + 128)).toNat = value % 128 + 128 :=
              Nat.mod_eq_of_lt (by omega)
            have higher : value / 128 < 128 ^ bound :=
              Nat.div_lt_of_lt_mul (by rwa [Nat.pow_succ'] at fits)
            have more : 0 < bound := by
              refine Nat.pos_of_ne_zero fun none => ?_
              rw [none] at higher
              omega
            rw [List.cons_append, readVarint, byte, if_neg (by omega),
              inductionHypothesis (by omega) higher more, Option.map_some,
              Option.some.injEq, Prod.mk.injEq]
            exact ⟨by omega, rfl⟩

theorem readVarint_varint
    {value : Nat}
    (fits : value < 2 ^ 32)
    (rest : List UInt8) :
    readVarint 5 (varint (UInt64.ofNat value) ++ rest) =
      some (value, rest) := by
  have same : (UInt64.ofNat value).toNat = value :=
    Nat.mod_eq_of_lt (by omega)
  rw [varint, same]
  exact readVarint_varintBytes (by decide) (by omega) (by decide) rest

theorem plainReader_documented : plainReader.Documented := by
  have varints :
      ∀ (value : UInt64) rest,
        readVarint 10 (varint value ++ rest) = some (value.toNat, rest) := by
    intro value rest
    have bound := value.toNat_lt
    exact readVarint_varintBytes (Nat.le_refl 10) (by omega) (by decide) rest
  have sized :
      ∀ bytes rest,
        Short bytes →
        readBytes (varint (UInt64.ofNat bytes.length) ++ (bytes ++ rest)) =
          some (bytes, rest) := by
    intro bytes rest short
    have within : bytes.length ≤ (bytes ++ rest).length := by
      rw [List.length_append]
      exact Nat.le_add_right _ _
    unfold Short at short
    rw [readBytes, readVarint_varint (by omega), Option.bind_some]
    dsimp only
    rw [if_pos ⟨short, within⟩, List.take_left, List.drop_left]
  refine ⟨?_, ?_, sized, ?_⟩
  · intro number wireType rest numbered small
    have bound := numbered.2
    exact readVarint_varint (by omega) rest
  · intro value rest
    show (readVarint 10 _).map _ = _
    rw [varints, Option.map_some]
    dsimp only
    rw [UInt64.ofNat_toNat]
  · intro bytes ascii
    exact List.all_eq_true.mpr fun byte inside =>
      decide_eq_true (ascii byte inside)

end ProtoWire

end NvmeofRaft
