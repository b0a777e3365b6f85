import NvmeofRaft.AppendEntriesWire
import NvmeofRaft.ProtoReading

namespace NvmeofRaft

/-!
# The messages between the nodes

The conversions of `raft_proto_conv.h` and the serialisers and parsers of
`rpcproto.pb.cc` for append and vote requests and their responses.  A message
that has been converted and serialised is parsed and converted back to what it
was.
-/

open ProtoWire (Reader Fields)

/-- The timing fields of `AppendEntriesResponse`, in nanoseconds. -/
structure AppendTimings where
  handlerDurationNs : Int64 := 0
  writePbaRtNs : Int64 := 0
  storageCopyNs : Int64 := 0
  handleAeLockWaitNs : Int64 := 0
  handleAePreNs : Int64 := 0
  handleAeLockWait2Ns : Int64 := 0
  handleAePostNs : Int64 := 0
  handleAePersistNs : Int64 := 0
  deriving Repr, DecidableEq

/-- `rpcproto.AppendEntriesResponse`. -/
structure ProtoAppendEntriesResponse where
  term : UInt64 := 0
  success : Bool := false
  conflictTerm : UInt64 := 0
  conflictIndex : UInt64 := 0
  timings : AppendTimings := {}
  deriving Repr, DecidableEq

/-- `rpcproto.RequestVoteRequest`. -/
structure ProtoRequestVoteRequest where
  term : UInt64 := 0
  candidateId : UInt64 := 0
  lastLogIndex : UInt64 := 0
  lastLogTerm : UInt64 := 0
  deriving Repr, DecidableEq

/-- `rpcproto.RequestVoteResponse`. -/
structure ProtoRequestVoteResponse where
  term : UInt64 := 0
  voteGranted : Bool := false
  deriving Repr, DecidableEq

/-- A cleared `rpcproto.EntryMeta`. -/
def ProtoEntryMeta.empty : ProtoEntryMeta where
  term := 0
  cmdLen := 0

/-- A cleared `rpcproto.AppendEntriesRequest`. -/
def ProtoAppendEntriesRequest.empty : ProtoAppendEntriesRequest where
  term := 0
  leaderId := 0
  prevLogIndex := 0
  prevLogTerm := 0
  leaderCommit := 0
  leaderPbaSrc := 0
  logBlockLength := 0
  numEntries := 0
  slotsPerEntry := 0
  startSlot := 0
  leaderDevIndex := 0
  dataAlreadyCopied := false
  entryMetas := []

/-- `entry_meta_from_proto`. -/
def ProtoEntryMeta.fromProto (entryMeta : ProtoEntryMeta) : EntryMeta where
  term := entryMeta.term.toNat
  cmdLen := entryMeta.cmdLen.toNat

/-- `append_entries_request_from_proto`. -/
def ProtoAppendEntriesRequest.fromProto
    (req : ProtoAppendEntriesRequest) :
    AppendEntriesRequest where
  term := req.term.toNat
  leaderId := req.leaderId.toNat
  prevLogIndex := req.prevLogIndex.toNat
  prevLogTerm := req.prevLogTerm.toNat
  leaderCommit := req.leaderCommit.toNat
  leaderPbaSrc := req.leaderPbaSrc.toNat
  logBlockLength := req.logBlockLength.toNat
  numEntries := req.numEntries.toNat
  slotsPerEntry := req.slotsPerEntry.toNat
  startSlot := req.startSlot.toNat
  -- the index of a member, which no node sends negative
  leaderDevIndex := req.leaderDevIndex.toNatClampNeg
  dataAlreadyCopied := req.dataAlreadyCopied
  entryMetas := req.entryMetas.map ProtoEntryMeta.fromProto

/-- `append_entries_response_to_proto`. -/
def AppendEntriesResponse.toProto
    (rsp : AppendEntriesResponse)
    (timings : AppendTimings) :
    ProtoAppendEntriesResponse where
  term := UInt64.ofNat rsp.term
  success := rsp.success
  conflictTerm := UInt64.ofNat rsp.conflictTerm
  conflictIndex := UInt64.ofNat rsp.conflictIndex
  timings

/-- `append_entries_response_from_proto`. -/
def ProtoAppendEntriesResponse.fromProto
    (rsp : ProtoAppendEntriesResponse) :
    AppendEntriesResponse × AppendTimings :=
  ({ term := rsp.term.toNat
     success := rsp.success
     conflictTerm := rsp.conflictTerm.toNat
     conflictIndex := rsp.conflictIndex.toNat },
   rsp.timings)

/-- `request_vote_request_to_proto`. -/
def RequestVoteRequest.toProto
    (req : RequestVoteRequest) :
    ProtoRequestVoteRequest where
  term := UInt64.ofNat req.term
  candidateId := UInt64.ofNat req.candidateId
  lastLogIndex := UInt64.ofNat req.lastLogIndex
  lastLogTerm := UInt64.ofNat req.lastLogTerm

/-- `request_vote_request_from_proto`. -/
def ProtoRequestVoteRequest.fromProto
    (req : ProtoRequestVoteRequest) :
    RequestVoteRequest where
  term := req.term.toNat
  candidateId := req.candidateId.toNat
  lastLogIndex := req.lastLogIndex.toNat
  lastLogTerm := req.lastLogTerm.toNat

/-- `request_vote_response_to_proto`. -/
def RequestVoteResponse.toProto
    (rsp : RequestVoteResponse) :
    ProtoRequestVoteResponse where
  term := UInt64.ofNat rsp.term
  voteGranted := rsp.voteGranted

/-- `request_vote_response_from_proto`. -/
def ProtoRequestVoteResponse.fromProto
    (rsp : ProtoRequestVoteResponse) :
    RequestVoteResponse where
  term := rsp.term.toNat
  voteGranted := rsp.voteGranted

/-- `AppendEntriesResponse::_InternalSerialize`. -/
def ProtoAppendEntriesResponse.serialize
    (rsp : ProtoAppendEntriesResponse) :
    List UInt8 :=
  ProtoWire.uint64Field 1 rsp.term ++
    ProtoWire.boolField 2 rsp.success ++
    ProtoWire.uint64Field 3 rsp.conflictTerm ++
    ProtoWire.uint64Field 4 rsp.conflictIndex ++
    ProtoWire.int64Field 5 rsp.timings.handlerDurationNs ++
    ProtoWire.int64Field 6 rsp.timings.writePbaRtNs ++
    ProtoWire.int64Field 7 rsp.timings.storageCopyNs ++
    ProtoWire.int64Field 8 rsp.timings.handleAeLockWaitNs ++
    ProtoWire.int64Field 9 rsp.timings.handleAePreNs ++
    ProtoWire.int64Field 10 rsp.timings.handleAeLockWait2Ns ++
    ProtoWire.int64Field 11 rsp.timings.handleAePostNs ++
    ProtoWire.int64Field 12 rsp.timings.handleAePersistNs

/-- `RequestVoteRequest::_InternalSerialize`. -/
def ProtoRequestVoteRequest.serialize
    (req : ProtoRequestVoteRequest) :
    List UInt8 :=
  ProtoWire.uint64Field 1 req.term ++
    ProtoWire.uint64Field 2 req.candidateId ++
    ProtoWire.uint64Field 3 req.lastLogIndex ++
    ProtoWire.uint64Field 4 req.lastLogTerm

/-- `RequestVoteResponse::_InternalSerialize`. -/
def ProtoRequestVoteResponse.serialize
    (rsp : ProtoRequestVoteResponse) :
    List UInt8 :=
  ProtoWire.uint64Field 1 rsp.term ++ ProtoWire.boolField 2 rsp.voteGranted

/-- The cases of `EntryMeta::_InternalParse`. -/
def ProtoEntryMeta.fields (reader : Reader) : Fields ProtoEntryMeta
  | 8 => some (reader.uint64 fun entryMeta term => { entryMeta with term })
  | 16 => some (reader.uint64 fun entryMeta cmdLen =>
      { entryMeta with cmdLen })
  | _ => none

/--
The cases of `AppendEntriesRequest::_InternalParse`.  Its inner loop over the
records of the entries is as many turns of the outer one.
-/
def ProtoAppendEntriesRequest.fields
    (reader : Reader) :
    Fields ProtoAppendEntriesRequest
  | 8 => some (reader.uint64 fun req term => { req with term })
  | 16 => some (reader.uint64 fun req leaderId => { req with leaderId })
  | 24 => some (reader.uint64 fun req prevLogIndex =>
      { req with prevLogIndex })
  | 32 => some (reader.uint64 fun req prevLogTerm => { req with prevLogTerm })
  | 40 => some (reader.uint64 fun req leaderCommit =>
      { req with leaderCommit })
  | 48 => some (reader.uint64 fun req leaderPbaSrc =>
      { req with leaderPbaSrc })
  | 56 => some (reader.uint64 fun req logBlockLength =>
      { req with logBlockLength })
  | 64 => some (reader.uint64 fun req numEntries => { req with numEntries })
  | 72 => some (reader.uint64 fun req slotsPerEntry =>
      { req with slotsPerEntry })
  | 80 => some (reader.uint64 fun req startSlot => { req with startSlot })
  | 88 => some (reader.int32 fun req leaderDevIndex =>
      { req with leaderDevIndex })
  | 98 => some (reader.message
      (reader.parse (ProtoEntryMeta.fields reader) .empty)
      fun req entryMeta =>
        { req with entryMetas := req.entryMetas ++ [entryMeta] })
  | 104 => some (reader.bool fun req dataAlreadyCopied =>
      { req with dataAlreadyCopied })
  | _ => none

/-- The cases of `AppendEntriesResponse::_InternalParse`. -/
def ProtoAppendEntriesResponse.fields
    (reader : Reader) :
    Fields ProtoAppendEntriesResponse
  | 8 => some (reader.uint64 fun rsp term => { rsp with term })
  | 16 => some (reader.bool fun rsp success => { rsp with success })
  | 24 => some (reader.uint64 fun rsp conflictTerm =>
      { rsp with conflictTerm })
  | 32 => some (reader.uint64 fun rsp conflictIndex =>
      { rsp with conflictIndex })
  | 40 => some (reader.int64 fun rsp nanos =>
      { rsp with timings.handlerDurationNs := nanos })
  | 48 => some (reader.int64 fun rsp nanos =>
      { rsp with timings.writePbaRtNs := nanos })
  | 56 => some (reader.int64 fun rsp nanos =>
      { rsp with timings.storageCopyNs := nanos })
  | 64 => some (reader.int64 fun rsp nanos =>
      { rsp with timings.handleAeLockWaitNs := nanos })
  | 72 => some (reader.int64 fun rsp nanos =>
      { rsp with timings.handleAePreNs := nanos })
  | 80 => some (reader.int64 fun rsp nanos =>
      { rsp with timings.handleAeLockWait2Ns := nanos })
  | 88 => some (reader.int64 fun rsp nanos =>
      { rsp with timings.handleAePostNs := nanos })
  | 96 => some (reader.int64 fun rsp nanos =>
      { rsp with timings.handleAePersistNs := nanos })
  | _ => none

/-- The cases of `RequestVoteRequest::_InternalParse`. -/
def ProtoRequestVoteRequest.fields
    (reader : Reader) :
    Fields ProtoRequestVoteRequest
  | 8 => some (reader.uint64 fun req term => { req with term })
  | 16 => some (reader.uint64 fun req candidateId => { req with candidateId })
  | 24 => some (reader.uint64 fun req lastLogIndex =>
      { req with lastLogIndex })
  | 32 => some (reader.uint64 fun req lastLogTerm => { req with lastLogTerm })
  | _ => none

/-- The cases of `RequestVoteResponse::_InternalParse`. -/
def ProtoRequestVoteResponse.fields
    (reader : Reader) :
    Fields ProtoRequestVoteResponse
  | 8 => some (reader.uint64 fun rsp term => { rsp with term })
  | 16 => some (reader.bool fun rsp voteGranted => { rsp with voteGranted })
  | _ => none

section

variable {reader : Reader}

theorem ProtoEntryMeta.parses
    (documented : reader.Documented)
    (entryMeta : ProtoEntryMeta) :
    reader.parse (ProtoEntryMeta.fields reader) .empty entryMeta.serialize =
      some entryMeta :=
  Reader.Reads.parses
    (.append
      (documented.reads_uint64 1 (by decide) _ rfl rfl rfl)
      (documented.reads_uint64 2 (by decide) _ rfl rfl rfl))

theorem ProtoEntryMeta.short
    (entryMeta : ProtoEntryMeta) :
    ProtoWire.Short entryMeta.serialize := by
  have bound := entryMeta.length_serialize_le
  unfold ProtoWire.Short
  omega

/-- The records of the entries are added in their order. -/
theorem foldl_entryMetas
    (entryMetas : List ProtoEntryMeta)
    (req : ProtoAppendEntriesRequest) :
    entryMetas.foldl
        (fun req entryMeta =>
          { req with entryMetas := req.entryMetas ++ [entryMeta] })
        req =
      { req with entryMetas := req.entryMetas ++ entryMetas } := by
  induction entryMetas generalizing req with
  | nil =>
      rw [List.foldl_nil, List.append_nil]
  | cons entryMeta entryMetas inductionHypothesis =>
      rw [List.foldl_cons, inductionHypothesis, List.append_assoc,
        List.singleton_append]

theorem ProtoAppendEntriesRequest.parses
    (documented : reader.Documented)
    (req : ProtoAppendEntriesRequest) :
    reader.parse (ProtoAppendEntriesRequest.fields reader) .empty
        req.serialize =
      some req := by
  have fields :
      reader.Reads (ProtoAppendEntriesRequest.fields reader) .empty
        req.serializeFields
        { req with dataAlreadyCopied := false, entryMetas := [] } :=
    .append (.append (.append (.append (.append (.append (.append (.append
      (.append (.append
        (documented.reads_uint64 1 (by decide) _ rfl rfl rfl)
        (documented.reads_uint64 2 (by decide) _ rfl rfl rfl))
        (documented.reads_uint64 3 (by decide) _ rfl rfl rfl))
        (documented.reads_uint64 4 (by decide) _ rfl rfl rfl))
        (documented.reads_uint64 5 (by decide) _ rfl rfl rfl))
        (documented.reads_uint64 6 (by decide) _ rfl rfl rfl))
        (documented.reads_uint64 7 (by decide) _ rfl rfl rfl))
        (documented.reads_uint64 8 (by decide) _ rfl rfl rfl))
        (documented.reads_uint64 9 (by decide) _ rfl rfl rfl))
        (documented.reads_uint64 10 (by decide) _ rfl rfl rfl))
        (documented.reads_int32 11 (by decide) _ rfl rfl rfl)
  have metas :
      reader.Reads (ProtoAppendEntriesRequest.fields reader)
        { req with dataAlreadyCopied := false, entryMetas := [] }
        (req.entryMetas.map fun entryMeta =>
          ProtoWire.messageField 12 entryMeta.serialize).flatten
        { req with dataAlreadyCopied := false } := by
    have reads :
        reader.Reads (ProtoAppendEntriesRequest.fields reader) _ _ _ :=
      documented.reads_messages 12 (by decide) rfl req.entryMetas
        (fun entryMeta _ => ⟨entryMeta.short, entryMeta.parses documented⟩)
        { req with dataAlreadyCopied := false, entryMetas := [] }
    rwa [foldl_entryMetas, List.nil_append] at reads
  exact Reader.Reads.parses
    (.append (.append fields metas)
      (documented.reads_bool 13 (by decide) _ rfl rfl rfl))

theorem ProtoAppendEntriesResponse.parses
    (documented : reader.Documented)
    (rsp : ProtoAppendEntriesResponse) :
    reader.parse (ProtoAppendEntriesResponse.fields reader) {} rsp.serialize =
      some rsp :=
  Reader.Reads.parses
    (.append (.append (.append (.append (.append (.append (.append (.append
      (.append (.append (.append
        (documented.reads_uint64 1 (by decide) _ rfl rfl rfl)
        (documented.reads_bool 2 (by decide) _ rfl rfl rfl))
        (documented.reads_uint64 3 (by decide) _ rfl rfl rfl))
        (documented.reads_uint64 4 (by decide) _ rfl rfl rfl))
        (documented.reads_int64 5 (by decide) _ rfl rfl rfl))
        (documented.reads_int64 6 (by decide) _ rfl rfl rfl))
        (documented.reads_int64 7 (by decide) _ rfl rfl rfl))
        (documented.reads_int64 8 (by decide) _ rfl rfl rfl))
        (documented.reads_int64 9 (by decide) _ rfl rfl rfl))
        (documented.reads_int64 10 (by decide) _ rfl rfl rfl))
        (documented.reads_int64 11 (by decide) _ rfl rfl rfl))
        (documented.reads_int64 12 (by decide) _ rfl rfl rfl))

theorem ProtoRequestVoteRequest.parses
    (documented : reader.Documented)
    (req : ProtoRequestVoteRequest) :
    reader.parse (ProtoRequestVoteRequest.fields reader) {} req.serialize =
      some req :=
  Reader.Reads.parses
    (.append (.append (.append
      (documented.reads_uint64 1 (by decide) _ rfl rfl rfl)
      (documented.reads_uint64 2 (by decide) _ rfl rfl rfl))
      (documented.reads_uint64 3 (by decide) _ rfl rfl rfl))
      (documented.reads_uint64 4 (by decide) _ rfl rfl rfl))

theorem ProtoRequestVoteResponse.parses
    (documented : reader.Documented)
    (rsp : ProtoRequestVoteResponse) :
    reader.parse (ProtoRequestVoteResponse.fields reader) {} rsp.serialize =
      some rsp :=
  Reader.Reads.parses
    (.append
      (documented.reads_uint64 1 (by decide) _ rfl rfl rfl)
      (documented.reads_bool 2 (by decide) _ rfl rfl rfl))

end

theorem ProtoAppendEntriesResponse.length_serialize_le
    (rsp : ProtoAppendEntriesResponse) :
    rsp.serialize.length ≤ 132 := by
  have field :
      ∀ number < 16, ∀ value,
        (ProtoWire.uint64Field number value).length ≤ 11 :=
    fun _ small value => ProtoWire.length_uint64Field_le small value
  have time :
      ∀ number < 16, ∀ value,
        (ProtoWire.int64Field number value).length ≤ 11 :=
    fun _ small value => ProtoWire.length_int64Field_le small value
  have term := field 1 (by decide) rsp.term
  have success :=
    ProtoWire.length_boolField_le (show 2 < 16 by decide) rsp.success
  have conflictTerm := field 3 (by decide) rsp.conflictTerm
  have conflictIndex := field 4 (by decide) rsp.conflictIndex
  have handlerDuration := time 5 (by decide) rsp.timings.handlerDurationNs
  have writePbaRt := time 6 (by decide) rsp.timings.writePbaRtNs
  have storageCopy := time 7 (by decide) rsp.timings.storageCopyNs
  have lockWait := time 8 (by decide) rsp.timings.handleAeLockWaitNs
  have pre := time 9 (by decide) rsp.timings.handleAePreNs
  have secondLockWait := time 10 (by decide) rsp.timings.handleAeLockWait2Ns
  have post := time 11 (by decide) rsp.timings.handleAePostNs
  have persist := time 12 (by decide) rsp.timings.handleAePersistNs
  simp only [ProtoAppendEntriesResponse.serialize, List.length_append]
  omega

theorem ProtoRequestVoteRequest.length_serialize_le
    (req : ProtoRequestVoteRequest) :
    req.serialize.length ≤ 44 := by
  have field :
      ∀ number < 16, ∀ value,
        (ProtoWire.uint64Field number value).length ≤ 11 :=
    fun _ small value => ProtoWire.length_uint64Field_le small value
  have term := field 1 (by decide) req.term
  have candidateId := field 2 (by decide) req.candidateId
  have lastLogIndex := field 3 (by decide) req.lastLogIndex
  have lastLogTerm := field 4 (by decide) req.lastLogTerm
  simp only [ProtoRequestVoteRequest.serialize, List.length_append]
  omega

theorem ProtoRequestVoteResponse.length_serialize_le
    (rsp : ProtoRequestVoteResponse) :
    rsp.serialize.length ≤ 22 := by
  have term :=
    ProtoWire.length_uint64Field_le (show 1 < 16 by decide) rsp.term
  have voteGranted :=
    ProtoWire.length_boolField_le (show 2 < 16 by decide) rsp.voteGranted
  rw [ProtoRequestVoteResponse.serialize, List.length_append]
  omega

/-- The numbers fit the fields of the message. -/
structure EntryMeta.Fits (entryMeta : EntryMeta) : Prop where
  term : entryMeta.term < 2 ^ 64
  cmdLen : entryMeta.cmdLen < 2 ^ 64

/-- The numbers fit the fields of the message. -/
structure AppendEntriesRequest.Fits (req : AppendEntriesRequest) : Prop where
  term : req.term < 2 ^ 64
  leaderId : req.leaderId < 2 ^ 64
  prevLogIndex : req.prevLogIndex < 2 ^ 64
  prevLogTerm : req.prevLogTerm < 2 ^ 64
  leaderCommit : req.leaderCommit < 2 ^ 64
  leaderPbaSrc : req.leaderPbaSrc < 2 ^ 64
  logBlockLength : req.logBlockLength < 2 ^ 64
  numEntries : req.numEntries < 2 ^ 64
  slotsPerEntry : req.slotsPerEntry < 2 ^ 64
  startSlot : req.startSlot < 2 ^ 64
  leaderDevIndex : req.leaderDevIndex < 2 ^ 31
  entryMetas : ∀ entryMeta ∈ req.entryMetas, entryMeta.Fits

/-- The numbers fit the fields of the message. -/
structure AppendEntriesResponse.Fits (rsp : AppendEntriesResponse) : Prop where
  term : rsp.term < 2 ^ 64
  conflictTerm : rsp.conflictTerm < 2 ^ 64
  conflictIndex : rsp.conflictIndex < 2 ^ 64

/-- The numbers fit the fields of the message. -/
structure RequestVoteRequest.Fits (req : RequestVoteRequest) : Prop where
  term : req.term < 2 ^ 64
  candidateId : req.candidateId < 2 ^ 64
  lastLogIndex : req.lastLogIndex < 2 ^ 64
  lastLogTerm : req.lastLogTerm < 2 ^ 64

theorem uint64_toNat
    {value : Nat}
    (fits : value < 2 ^ 64) :
    (UInt64.ofNat value).toNat = value :=
  Nat.mod_eq_of_lt fits

theorem EntryMeta.Fits.converted
    {entryMeta : EntryMeta}
    (fits : entryMeta.Fits) :
    entryMeta.toProto.fromProto = entryMeta := by
  simp only [EntryMeta.toProto, ProtoEntryMeta.fromProto,
    uint64_toNat fits.term, uint64_toNat fits.cmdLen]

theorem AppendEntriesRequest.Fits.converted
    {req : AppendEntriesRequest}
    (fits : req.Fits) :
    req.toProto.fromProto = req := by
  have metas :
      (req.entryMetas.map EntryMeta.toProto).map ProtoEntryMeta.fromProto =
        req.entryMetas := by
    have each :
        ∀ entryMeta ∈ req.entryMetas,
          (ProtoEntryMeta.fromProto ∘ EntryMeta.toProto) entryMeta =
            id entryMeta :=
      fun entryMeta inside => (fits.entryMetas entryMeta inside).converted
    rw [List.map_map, List.map_congr_left each, List.map_id]
  have device :=
    Int32.toNatClampNeg_ofNat_of_lt fits.leaderDevIndex
  simp only [AppendEntriesRequest.toProto, ProtoAppendEntriesRequest.fromProto,
    uint64_toNat fits.term, uint64_toNat fits.leaderId,
    uint64_toNat fits.prevLogIndex, uint64_toNat fits.prevLogTerm,
    uint64_toNat fits.leaderCommit, uint64_toNat fits.leaderPbaSrc,
    uint64_toNat fits.logBlockLength, uint64_toNat fits.numEntries,
    uint64_toNat fits.slotsPerEntry, uint64_toNat fits.startSlot, device,
    metas]

theorem AppendEntriesResponse.Fits.converted
    {rsp : AppendEntriesResponse}
    (fits : rsp.Fits)
    (timings : AppendTimings) :
    (rsp.toProto timings).fromProto = (rsp, timings) := by
  simp only [AppendEntriesResponse.toProto,
    ProtoAppendEntriesResponse.fromProto, uint64_toNat fits.term,
    uint64_toNat fits.conflictTerm, uint64_toNat fits.conflictIndex]

theorem RequestVoteRequest.Fits.converted
    {req : RequestVoteRequest}
    (fits : req.Fits) :
    req.toProto.fromProto = req := by
  simp only [RequestVoteRequest.toProto, ProtoRequestVoteRequest.fromProto,
    uint64_toNat fits.term, uint64_toNat fits.candidateId,
    uint64_toNat fits.lastLogIndex, uint64_toNat fits.lastLogTerm]

theorem RequestVoteResponse.converted
    {rsp : RequestVoteResponse}
    (fits : rsp.term < 2 ^ 64) :
    rsp.toProto.fromProto = rsp := by
  simp only [RequestVoteResponse.toProto, ProtoRequestVoteResponse.fromProto,
    uint64_toNat fits]

end NvmeofRaft
