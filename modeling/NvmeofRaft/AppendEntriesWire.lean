import NvmeofRaft.ProtoWire
import NvmeofRaft.AppendEntries

namespace NvmeofRaft

/-!
# The message of an append request

`append_entries_request_to_proto` (`raft_proto_conv.h`) and the serialisers of
`rpcproto.pb.cc`.  What other code relies on is how long the bytes get, which
`ProtoFormat` states for any serialiser.
-/

/-- `rpcproto.EntryMeta`. -/
structure ProtoEntryMeta where
  term : UInt64
  cmdLen : UInt64
  deriving Repr, DecidableEq

/-- `rpcproto.AppendEntriesRequest`. -/
structure ProtoAppendEntriesRequest where
  term : UInt64
  leaderId : UInt64
  prevLogIndex : UInt64
  prevLogTerm : UInt64
  leaderCommit : UInt64
  leaderPbaSrc : UInt64
  logBlockLength : UInt64
  numEntries : UInt64
  slotsPerEntry : UInt64
  startSlot : UInt64
  leaderDevIndex : Int32
  dataAlreadyCopied : Bool
  entryMetas : List ProtoEntryMeta
  deriving Repr, DecidableEq

/-- `entry_meta_to_proto`. -/
def EntryMeta.toProto (entryMeta : EntryMeta) : ProtoEntryMeta where
  term := UInt64.ofNat entryMeta.term
  cmdLen := UInt64.ofNat entryMeta.cmdLen

/-- `append_entries_request_to_proto`. -/
def AppendEntriesRequest.toProto
    (req : AppendEntriesRequest) :
    ProtoAppendEntriesRequest where
  term := UInt64.ofNat req.term
  leaderId := UInt64.ofNat req.leaderId
  prevLogIndex := UInt64.ofNat req.prevLogIndex
  prevLogTerm := UInt64.ofNat req.prevLogTerm
  leaderCommit := UInt64.ofNat req.leaderCommit
  leaderPbaSrc := UInt64.ofNat req.leaderPbaSrc
  logBlockLength := UInt64.ofNat req.logBlockLength
  numEntries := UInt64.ofNat req.numEntries
  slotsPerEntry := UInt64.ofNat req.slotsPerEntry
  startSlot := UInt64.ofNat req.startSlot
  leaderDevIndex := Int32.ofNat req.leaderDevIndex
  dataAlreadyCopied := req.dataAlreadyCopied
  entryMetas := req.entryMetas.map EntryMeta.toProto

/-- `EntryMeta::_InternalSerialize`. -/
def ProtoEntryMeta.serialize (entryMeta : ProtoEntryMeta) : List UInt8 :=
  ProtoWire.uint64Field 1 entryMeta.term ++
    ProtoWire.uint64Field 2 entryMeta.cmdLen

/-- The fields of the request in front of the metadata. -/
def ProtoAppendEntriesRequest.serializeFields
    (req : ProtoAppendEntriesRequest) :
    List UInt8 :=
  ProtoWire.uint64Field 1 req.term ++
    ProtoWire.uint64Field 2 req.leaderId ++
    ProtoWire.uint64Field 3 req.prevLogIndex ++
    ProtoWire.uint64Field 4 req.prevLogTerm ++
    ProtoWire.uint64Field 5 req.leaderCommit ++
    ProtoWire.uint64Field 6 req.leaderPbaSrc ++
    ProtoWire.uint64Field 7 req.logBlockLength ++
    ProtoWire.uint64Field 8 req.numEntries ++
    ProtoWire.uint64Field 9 req.slotsPerEntry ++
    ProtoWire.uint64Field 10 req.startSlot ++
    ProtoWire.int32Field 11 req.leaderDevIndex

/-- `AppendEntriesRequest::_InternalSerialize`. -/
def ProtoAppendEntriesRequest.serialize
    (req : ProtoAppendEntriesRequest) :
    List UInt8 :=
  req.serializeFields ++
    (req.entryMetas.map fun entryMeta =>
      ProtoWire.messageField 12 entryMeta.serialize).flatten ++
    ProtoWire.boolField 13 req.dataAlreadyCopied

/--
A serialiser of append requests: every metadata record takes at most 24 bytes,
and at least 4 if its term is not zero, and all other fields take at most 200.
-/
structure ProtoFormat where
  serialize : ProtoAppendEntriesRequest → List UInt8
  metaBytes : ProtoEntryMeta → Nat
  fieldBytes : ProtoAppendEntriesRequest → Nat
  length :
    ∀ req,
      (serialize req).length =
        fieldBytes req + (req.entryMetas.map metaBytes).sum
  metaLeast : ∀ entryMeta, entryMeta.term ≠ 0 → 4 ≤ metaBytes entryMeta
  metaMost : ∀ entryMeta, metaBytes entryMeta ≤ 24
  fieldsMost : ∀ req, fieldBytes req ≤ 200

/-- The metadata of an entry take at most 22 bytes. -/
theorem ProtoEntryMeta.length_serialize_le
    (entryMeta : ProtoEntryMeta) :
    entryMeta.serialize.length ≤ 22 := by
  have term :=
    ProtoWire.length_uint64Field_le (show 1 < 16 by decide) entryMeta.term
  have cmdLen :=
    ProtoWire.length_uint64Field_le (show 2 < 16 by decide) entryMeta.cmdLen
  rw [ProtoEntryMeta.serialize, List.length_append]
  omega

/-- Inside a request two bytes go in front of them. -/
theorem ProtoEntryMeta.length_messageField
    (entryMeta : ProtoEntryMeta) :
    (ProtoWire.messageField 12 entryMeta.serialize).length =
      entryMeta.serialize.length + 2 := by
  have bound := entryMeta.length_serialize_le
  exact ProtoWire.length_messageField (by decide) (by omega)

/-- The other fields take at most 121 bytes. -/
theorem ProtoAppendEntriesRequest.length_serializeFields_le
    (req : ProtoAppendEntriesRequest) :
    req.serializeFields.length ≤ 121 := by
  have field :
      ∀ number < 16, ∀ value,
        (ProtoWire.uint64Field number value).length ≤ 11 :=
    fun _ small value => ProtoWire.length_uint64Field_le small value
  have term := field 1 (by decide) req.term
  have leaderId := field 2 (by decide) req.leaderId
  have prevLogIndex := field 3 (by decide) req.prevLogIndex
  have prevLogTerm := field 4 (by decide) req.prevLogTerm
  have leaderCommit := field 5 (by decide) req.leaderCommit
  have leaderPbaSrc := field 6 (by decide) req.leaderPbaSrc
  have logBlockLength := field 7 (by decide) req.logBlockLength
  have numEntries := field 8 (by decide) req.numEntries
  have slotsPerEntry := field 9 (by decide) req.slotsPerEntry
  have startSlot := field 10 (by decide) req.startSlot
  have leaderDevIndex :=
    field 11 (by decide) req.leaderDevIndex.toInt64.toUInt64
  simp only [ProtoAppendEntriesRequest.serializeFields, ProtoWire.int32Field,
    List.length_append]
  omega

/-- The generated serialiser of `rpcproto.pb.cc` keeps these bounds. -/
def rpcprotoFormat : ProtoFormat where
  serialize := ProtoAppendEntriesRequest.serialize
  metaBytes entryMeta := entryMeta.serialize.length + 2
  fieldBytes req :=
    req.serializeFields.length +
      (ProtoWire.boolField 13 req.dataAlreadyCopied).length
  length req := by
    have metas :
        ((req.entryMetas.map fun entryMeta =>
          ProtoWire.messageField 12 entryMeta.serialize).flatten).length =
          (req.entryMetas.map fun entryMeta =>
            entryMeta.serialize.length + 2).sum := by
      rw [List.length_flatten, List.map_map]
      exact congrArg List.sum
        (List.map_congr_left fun entryMeta _ => entryMeta.length_messageField)
    rw [ProtoAppendEntriesRequest.serialize, List.length_append,
      List.length_append, metas]
    omega
  metaLeast entryMeta some := by
    have term :=
      ProtoWire.le_length_uint64Field (show 1 < 16 by decide) some
    rw [ProtoEntryMeta.serialize, List.length_append]
    omega
  metaMost entryMeta := by
    have bound := entryMeta.length_serialize_le
    omega
  fieldsMost req := by
    have fields := req.length_serializeFields_le
    have copied :=
      ProtoWire.length_boolField_le (show 13 < 16 by decide)
        req.dataAlreadyCopied
    omega

end NvmeofRaft
