import NvmeofRaft.BatchCopy
import NvmeofRaft.CallSession
import NvmeofRaft.ProtoReading

namespace NvmeofRaft

/-!
# Calls of the block copy server

`RpcBlockCopyClient::write_pba_batch` behind its dial (`raft_rpc_clients.cpp`)
and `dispatch_blockcopy_method` (`raft_blockcopy_net.cpp`) over one connection,
with their messages.  The handler of the server is a parameter.
-/

open ProtoWire (Reader Fields Short plainReader plainReader_documented)

/-- `rpcproto.WritePBABatchRequest`. -/
structure ProtoWritePbaBatchRequest where
  pbaSrcs : List UInt64 := []
  pbaDsts : List UInt64 := []
  nbytes : List UInt64 := []
  blockSize : UInt64 := 0
  srcDev : Int32 := 0
  dstDev : Int32 := 0
  deriving Repr, DecidableEq

/-- `rpcproto.WritePBABatchResponse`. -/
structure ProtoWritePbaBatchResponse where
  err : List UInt8 := []
  copyNanos : Int64 := 0
  readNanos : Int64 := 0
  writeNanos : Int64 := 0
  deriving Repr, DecidableEq

/-- `write_pba_batch_request_to_proto`. -/
def WritePbaBatchReq.toProto
    (req : WritePbaBatchReq) :
    ProtoWritePbaBatchRequest where
  pbaSrcs := req.pbaSrcs.map UInt64.ofNat
  pbaDsts := req.pbaDsts.map UInt64.ofNat
  nbytes := req.nbytes.map UInt64.ofNat
  blockSize := UInt64.ofNat req.blockSize
  srcDev := Int32.ofInt req.srcDev
  dstDev := Int32.ofInt req.dstDev

/-- `write_pba_batch_request_from_proto`. -/
def ProtoWritePbaBatchRequest.fromProto
    (req : ProtoWritePbaBatchRequest) :
    WritePbaBatchReq where
  pbaSrcs := req.pbaSrcs.map UInt64.toNat
  pbaDsts := req.pbaDsts.map UInt64.toNat
  nbytes := req.nbytes.map UInt64.toNat
  blockSize := req.blockSize.toNat
  srcDev := req.srcDev.toInt
  dstDev := req.dstDev.toInt

/-- `write_pba_batch_response_to_proto`. -/
def WritePbaBatchRsp.toProto
    (rsp : WritePbaBatchRsp) :
    ProtoWritePbaBatchResponse where
  err := asciiBytes rsp.error
  copyNanos := Int64.ofNat rsp.copyNanos
  readNanos := Int64.ofNat rsp.readNanos
  writeNanos := Int64.ofNat rsp.writeNanos

/-- `WritePBABatchRequest::_InternalSerialize`. -/
def ProtoWritePbaBatchRequest.serialize
    (req : ProtoWritePbaBatchRequest) :
    List UInt8 :=
  ProtoWire.packedField 1 req.pbaSrcs ++
    ProtoWire.packedField 2 req.pbaDsts ++
    ProtoWire.packedField 3 req.nbytes ++
    ProtoWire.uint64Field 4 req.blockSize ++
    ProtoWire.int32Field 5 req.srcDev ++
    ProtoWire.int32Field 6 req.dstDev

/-- `WritePBABatchResponse::_InternalSerialize`. -/
def ProtoWritePbaBatchResponse.serialize
    (rsp : ProtoWritePbaBatchResponse) :
    List UInt8 :=
  ProtoWire.textField 1 rsp.err ++
    ProtoWire.int64Field 2 rsp.copyNanos ++
    ProtoWire.int64Field 3 rsp.readNanos ++
    ProtoWire.int64Field 4 rsp.writeNanos

/--
The cases of `WritePBABatchRequest::_InternalParse`, which also takes addresses
and sizes that are not packed.
-/
def ProtoWritePbaBatchRequest.fields
    (reader : Reader) :
    Fields ProtoWritePbaBatchRequest
  | 8 => some (reader.uint64 fun req value =>
      { req with pbaSrcs := req.pbaSrcs ++ [value] })
  | 10 => some (reader.packed fun req values =>
      { req with pbaSrcs := req.pbaSrcs ++ values })
  | 16 => some (reader.uint64 fun req value =>
      { req with pbaDsts := req.pbaDsts ++ [value] })
  | 18 => some (reader.packed fun req values =>
      { req with pbaDsts := req.pbaDsts ++ values })
  | 24 => some (reader.uint64 fun req value =>
      { req with nbytes := req.nbytes ++ [value] })
  | 26 => some (reader.packed fun req values =>
      { req with nbytes := req.nbytes ++ values })
  | 32 => some (reader.uint64 fun req blockSize => { req with blockSize })
  | 40 => some (reader.int32 fun req srcDev => { req with srcDev })
  | 48 => some (reader.int32 fun req dstDev => { req with dstDev })
  | _ => none

/-- The cases of `WritePBABatchResponse::_InternalParse`. -/
def ProtoWritePbaBatchResponse.fields
    (reader : Reader) :
    Fields ProtoWritePbaBatchResponse
  | 10 => some (reader.text fun rsp err => { rsp with err })
  | 16 => some (reader.int64 fun rsp copyNanos => { rsp with copyNanos })
  | 24 => some (reader.int64 fun rsp readNanos => { rsp with readNanos })
  | 32 => some (reader.int64 fun rsp writeNanos => { rsp with writeNanos })
  | _ => none

section

variable {reader : Reader}

/-- A request is parsed back. -/
theorem ProtoWritePbaBatchRequest.parses
    (documented : reader.Documented)
    {req : ProtoWritePbaBatchRequest}
    (short : Short req.serialize) :
    reader.parse (ProtoWritePbaBatchRequest.fields reader) {} req.serialize =
      some req := by
  have length :
      req.serialize.length =
        (ProtoWire.packedField 1 req.pbaSrcs).length +
          (ProtoWire.packedField 2 req.pbaDsts).length +
          (ProtoWire.packedField 3 req.nbytes).length +
          (ProtoWire.uint64Field 4 req.blockSize).length +
          (ProtoWire.int32Field 5 req.srcDev).length +
          (ProtoWire.int32Field 6 req.dstDev).length := by
    simp only [ProtoWritePbaBatchRequest.serialize, List.length_append]
  have pbaSrcs : Short (req.pbaSrcs.flatMap ProtoWire.varint) :=
    @ProtoWire.short_of_packedField 1 _ req.serialize (by omega) short
  have pbaDsts : Short (req.pbaDsts.flatMap ProtoWire.varint) :=
    @ProtoWire.short_of_packedField 2 _ req.serialize (by omega) short
  have nbytes : Short (req.nbytes.flatMap ProtoWire.varint) :=
    @ProtoWire.short_of_packedField 3 _ req.serialize (by omega) short
  exact Reader.Reads.parses
    (.append (.append (.append (.append (.append
      (documented.reads_packed 1 (by decide) _ rfl pbaSrcs rfl rfl)
      (documented.reads_packed 2 (by decide) _ rfl pbaDsts rfl rfl))
      (documented.reads_packed 3 (by decide) _ rfl nbytes rfl rfl))
      (documented.reads_uint64 4 (by decide) _ rfl rfl rfl))
      (documented.reads_int32 5 (by decide) _ rfl rfl rfl))
      (documented.reads_int32 6 (by decide) _ rfl rfl rfl))

/-- A response with an ASCII text is parsed back. -/
theorem ProtoWritePbaBatchResponse.parses
    (documented : reader.Documented)
    {rsp : ProtoWritePbaBatchResponse}
    (ascii : ∀ byte ∈ rsp.err, byte.toNat < 128)
    (short : Short rsp.err) :
    reader.parse (ProtoWritePbaBatchResponse.fields reader) {} rsp.serialize =
      some rsp :=
  Reader.Reads.parses
    (.append (.append (.append
      (documented.reads_text 1 (by decide) _ rfl short ascii rfl rfl)
      (documented.reads_int64 2 (by decide) _ rfl rfl rfl))
      (documented.reads_int64 3 (by decide) _ rfl rfl rfl))
      (documented.reads_int64 4 (by decide) _ rfl rfl rfl))

end

/-- `rpc_method::kWritePBABatch`. -/
def kWritePbaBatch : List UInt8 :=
  asciiBytes "BlockCopyServer.HandleWritePBABatch"

/--
`dispatch_blockcopy_method`.  `leftover` is what a failed `ParseFromArray`
leaves in the message.
-/
def dispatchBlockcopyMethod
    {σ : Type}
    (reader : Reader)
    (leftover : List UInt8 → ProtoWritePbaBatchRequest)
    (handleWritePbaBatch : σ → WritePbaBatchReq → σ × WritePbaBatchRsp) :
    RpcMethodDispatcher σ :=
  fun state serviceMethod body =>
    if serviceMethod = kWritePbaBatch then
      let req := (reader.parseFromArray
        (ProtoWritePbaBatchRequest.fields reader) {} body).getD (leftover body)
      let (state, rsp) := handleWritePbaBatch state req.fromProto
      (state, { found := .ok true, rspBody := rsp.toProto.serialize })
    else
      (state, { found := .ok false })

/-- What `write_pba_batch` gives: `out_error`, or `out_copy_ns`. -/
abbrev CopyAnswer :=
  Except (List UInt8) Int64

/-- What `write_pba_batch` makes of the response. -/
def copyAnswer
    (reader : Reader)
    (response : WireResponse) :
    CopyAnswer :=
  if response.error ≠ [] then
    .error (asciiBytes "blkcopy remote error: remote error: " ++
      response.error)
  else
    match
      reader.parseFromArray (ProtoWritePbaBatchResponse.fields reader) {}
        response.body with
    | none =>
        .error (asciiBytes "parse WritePBABatch response failed")
    | some rsp =>
        -- `write_pba_batch_response_from_proto` copies the fields
        if rsp.err ≠ [] then
          .error (asciiBytes "blkcopy storage error: " ++ rsp.err)
        else
          .ok rsp.copyNanos

/-- The call of `write_pba_batch`, for a batch that is not empty. -/
def copyStub (reader : Reader) : RpcStub WritePbaBatchReq CopyAnswer where
  serviceMethod _ := kWritePbaBatch
  body req := req.toProto.serialize
  read _ := copyAnswer reader

section

variable {σ : Type} {reader : Reader}
variable {leftover : List UInt8 → ProtoWritePbaBatchRequest}
variable {handler : σ → WritePbaBatchReq → σ × WritePbaBatchRsp}
variable {state : σ} {req : WritePbaBatchReq} {rsp : WritePbaBatchRsp}
variable {request : WireRequest}

/-- What the caller gets for the response of the handler. -/
def WritePbaBatchRsp.answer (rsp : WritePbaBatchRsp) : CopyAnswer :=
  if rsp.error = "" then
    .ok (Int64.ofNat rsp.copyNanos)
  else
    .error (asciiBytes "blkcopy storage error: " ++ asciiBytes rsp.error)

/-- The handler on its own, and what the caller gets. -/
def serveCopy
    (handler : σ → WritePbaBatchReq → σ × WritePbaBatchRsp)
    (state : σ)
    (req : WritePbaBatchReq) :
    σ × CopyAnswer :=
  let (next, rsp) := handler state req
  (next, rsp.answer)

/-- The numbers fit the fields of the message, and the message an `int`. -/
structure WritePbaBatchReq.Fits (req : WritePbaBatchReq) : Prop where
  pbaSrcs : ∀ pba ∈ req.pbaSrcs, pba < 2 ^ 64
  pbaDsts : ∀ pba ∈ req.pbaDsts, pba < 2 ^ 64
  nbytes : ∀ size ∈ req.nbytes, size < 2 ^ 64
  blockSize : req.blockSize < 2 ^ 64
  srcDev : -2 ^ 31 ≤ req.srcDev ∧ req.srcDev < 2 ^ 31
  dstDev : -2 ^ 31 ≤ req.dstDev ∧ req.dstDev < 2 ^ 31
  short : Short req.toProto.serialize

/-- The letters of the text are ASCII. -/
def isAscii (text : String) : Bool :=
  text.toList.all fun letter => letter.toNat < 128

/-- The text is ASCII, and the message fits an `int`. -/
structure WritePbaBatchRsp.Fits (rsp : WritePbaBatchRsp) : Prop where
  ascii : isAscii rsp.error = true
  short : Short rsp.toProto.serialize

/-- The request fits its message, and so does the response to it. -/
def CopyFits
    (handler : σ → WritePbaBatchReq → σ × WritePbaBatchRsp)
    (state : σ)
    (req : WritePbaBatchReq) : Prop :=
  req.Fits ∧ (handler state req).2.Fits

theorem words_converted
    {numbers : List Nat}
    (fit : ∀ number ∈ numbers, number < 2 ^ 64) :
    (numbers.map UInt64.ofNat).map UInt64.toNat = numbers := by
  have each :
      ∀ number ∈ numbers,
        (UInt64.toNat ∘ UInt64.ofNat) number = id number :=
    fun number inside => Nat.mod_eq_of_lt (fit number inside)
  rw [List.map_map, List.map_congr_left each, List.map_id]

/-- A request is converted to its message and back. -/
theorem WritePbaBatchReq.Fits.converted
    (fits : req.Fits) :
    req.toProto.fromProto = req := by
  have blockSize : (UInt64.ofNat req.blockSize).toNat = req.blockSize :=
    Nat.mod_eq_of_lt fits.blockSize
  simp only [WritePbaBatchReq.toProto, ProtoWritePbaBatchRequest.fromProto,
    words_converted fits.pbaSrcs, words_converted fits.pbaDsts,
    words_converted fits.nbytes, blockSize,
    Int32.toInt_ofInt_of_le fits.srcDev.1 fits.srcDev.2,
    Int32.toInt_ofInt_of_le fits.dstDev.1 fits.dstDev.2]

/-- The handler gets the request that the caller gave. -/
theorem WritePbaBatchReq.Fits.dispatched
    (fits : req.Fits)
    (documented : reader.Documented) :
    dispatchBlockcopyMethod reader leftover handler state kWritePbaBatch
        req.toProto.serialize =
      ((handler state req).1,
        { found := .ok true
          rspBody := (handler state req).2.toProto.serialize }) := by
  have small : req.toProto.serialize.length < 2 ^ 31 :=
    Nat.lt_of_lt_of_le fits.short (by decide)
  have parsed :=
    Reader.parseFromArray_of_parses
      (ProtoWritePbaBatchRequest.parses documented fits.short) small
  rw [dispatchBlockcopyMethod, if_pos rfl, parsed]
  simp only [Option.getD_some, fits.converted]

theorem asciiBytes_eq_nil
    (text : String) :
    asciiBytes text = [] ↔ text = "" := by
  rw [asciiBytes, List.map_eq_nil_iff, String.toList_eq_nil_iff]

/-- The caller gets the outcome that the handler gave. -/
theorem WritePbaBatchRsp.Fits.answered
    (fits : rsp.Fits)
    (documented : reader.Documented) :
    copyAnswer reader
        (Dispatched.response
          { found := .ok true, rspBody := rsp.toProto.serialize } request) =
      rsp.answer := by
  have ascii : ∀ byte ∈ rsp.toProto.err, byte.toNat < 128 := by
    intro byte inside
    obtain ⟨letter, among, rfl⟩ := List.mem_map.mp inside
    have bound :=
      of_decide_eq_true (List.all_eq_true.mp fits.ascii letter among)
    show letter.toNat % 256 < 128
    omega
  have length :
      rsp.toProto.serialize.length =
        (ProtoWire.textField 1 rsp.toProto.err).length +
          (ProtoWire.int64Field 2 rsp.toProto.copyNanos).length +
          (ProtoWire.int64Field 3 rsp.toProto.readNanos).length +
          (ProtoWire.int64Field 4 rsp.toProto.writeNanos).length := by
    simp only [ProtoWritePbaBatchResponse.serialize, List.length_append]
  have short : Short rsp.toProto.err :=
    @ProtoWire.short_of_textField 1 _ rsp.toProto.serialize (by omega)
      fits.short
  have parsed :=
    Reader.parseFromArray_of_parses
      (ProtoWritePbaBatchResponse.parses documented ascii short)
      (Nat.lt_of_lt_of_le fits.short (by decide))
  unfold copyAnswer WritePbaBatchRsp.answer
  rw [if_neg fun some => some rfl]
  dsimp only [Dispatched.response]
  rw [parsed]
  dsimp only [WritePbaBatchRsp.toProto]
  by_cases silent : rsp.error = ""
  · rw [if_pos silent, silent]
    rfl
  · rw [if_neg silent, if_pos]
    exact fun none => silent ((asciiBytes_eq_nil rsp.error).mp none)

theorem length_kWritePbaBatch :
    1 ≤ kWritePbaBatch.length ∧ kWritePbaBatch.length ≤ 65535 := by
  decide +kernel

/-- A call over the wire is a call of the handler. -/
theorem CopyFits.serves
    (fits : CopyFits handler state req)
    (documented : reader.Documented) :
    (copyStub reader).Serves (dispatchBlockcopyMethod reader leftover handler)
      (serveCopy handler) state req := by
  have named := length_kWritePbaBatch
  have body : req.toProto.serialize.length < 2 ^ 32 :=
    Nat.lt_of_lt_of_le fits.1.short (by decide)
  have answer : (handler state req).2.toProto.serialize.length < 2 ^ 32 :=
    Nat.lt_of_lt_of_le fits.2.short (by decide)
  exact .of_dispatched (fun _ number => ⟨named.1, named.2, number, body⟩)
    (fits.1.dispatched documented)
    (fun _ number => ⟨number, Nat.zero_le _, answer⟩)
    (fun _ => fits.2.answered documented)

/--
A follower that dials the storage node and sends batches on the connection has
each of them copied by the handler, in their order, and gets the handler's
copy time or its error.
-/
theorem copy_calls_reach_handler
    {reqs : List WritePbaBatchReq}
    {nextSeq : Nat}
    {client server : Socket}
    (documented : reader.Documented)
    (fits : HoldsAlong (serveCopy handler) (CopyFits handler) state reqs)
    (numbers : nextSeq + reqs.length ≤ 2 ^ 64)
    (clientFresh : client.outgoing = [])
    (serverFresh : server.outgoing = [])
    (clientCalls : client.CallsSucceed)
    (serverCalls : server.CallsSucceed) :
    ∃ dialed written connected drained responses,
      wireWriteAll client connectRequest = .ok dialed ∧
        WireClientCodec.writeRequests { socket := dialed }
            ((copyStub reader).requests nextSeq reqs) =
            .ok written ∧
          let session :=
            serveRpcConnection
              (dispatchBlockcopyMethod reader leftover handler) state
              (server.arriving written.socket.outgoing)
          session.state = (handleCalls (serveCopy handler) state reqs).1 ∧
            readConnectOk
                (written.socket.arriving session.codec.socket.outgoing) =
              .ok connected ∧
            WireClientCodec.readResponses reqs.length
                { written with socket := connected } =
              .ok (responses, drained) ∧
            drained.socket.incoming = [] ∧
            List.zipWith (copyStub reader).read reqs responses =
              (handleCalls (serveCopy handler) state reqs).2 :=
  have serves :=
    fits.imp fun _ _ fits => fits.serves documented
  dialed_calls serves numbers clientFresh serverFresh clientCalls serverCalls

end

/--
`handle_write_pba_batch` on the devices, on a schedule of the threads for each
batch.  A schedule that is none of the batch leaves everything as it is.
-/
def BlockCopyServer.handlerOn
    (allocates : Nat → Bool)
    (schedule : WritePbaBatchReq → List CopyMove)
    (state : BlockCopyServer × Devices)
    (req : WritePbaBatchReq) :
    (BlockCopyServer × Devices) × WritePbaBatchRsp :=
  match
    state.1.handleWritePbaBatch req allocates state.2 (schedule req) with
  | some result => ((result.server, result.devices), result.rsp)
  | none => (state, {})

/-- Two batches; the second one names a volume that is not there. -/
def twoBatches : List WritePbaBatchReq :=
  [twoChunks, { twoChunks with dstDev := 7 }]

/-- Two workers on the first batch; the second one starts none. -/
def crossedSchedule (req : WritePbaBatchReq) : List CopyMove :=
  if req.dstDev = 1 then crossedMoves else []

/-- Over the wire the first batch is copied and the second one is refused. -/
theorem crossed_batches_copied :
    ∃ dialed written connected drained responses,
      wireWriteAll { calls := [some 0, some 3] } connectRequest = .ok dialed ∧
        WireClientCodec.writeRequests { socket := dialed }
            ((copyStub plainReader).requests 1 twoBatches) =
            .ok written ∧
          let handler :=
            BlockCopyServer.handlerOn (fun _ => true) crossedSchedule
          let session :=
            serveRpcConnection
              (dispatchBlockcopyMethod plainReader (fun _ => {}) handler)
              (twoVolumes, countedBytes)
              (Socket.arriving { calls := [some 1] } written.socket.outgoing)
          session.state =
              (handleCalls (serveCopy handler) (twoVolumes, countedBytes)
                twoBatches).1 ∧
            readConnectOk
                (written.socket.arriving session.codec.socket.outgoing) =
              .ok connected ∧
            WireClientCodec.readResponses 2
                { written with socket := connected } =
              .ok (responses, drained) ∧
            drained.socket.incoming = [] ∧
            List.zipWith (copyStub plainReader).read twoBatches responses =
              [.ok 16,
                .error (asciiBytes
                  "blkcopy storage error: device index out of range")] := by
  have first : twoChunks.Fits :=
    ⟨by decide, by decide, by decide, by decide, by decide, by decide,
      by decide +kernel⟩
  have second : WritePbaBatchReq.Fits { twoChunks with dstDev := 7 } :=
    ⟨by decide, by decide, by decide, by decide, by decide, by decide,
      by decide +kernel⟩
  have copied :
      (BlockCopyServer.handlerOn (fun _ => true) crossedSchedule
        (twoVolumes, countedBytes) twoChunks).2 =
        { copyNanos := 16, readNanos := 8, writeNanos := 8 } := by
    decide +kernel
  have refused :
      (BlockCopyServer.handlerOn (fun _ => true) crossedSchedule
        (serveCopy
          (BlockCopyServer.handlerOn (fun _ => true) crossedSchedule)
          (twoVolumes, countedBytes) twoChunks).1
        { twoChunks with dstDev := 7 }).2 =
        { error := "device index out of range" } := by
    decide +kernel
  have fits :
      HoldsAlong
        (serveCopy (BlockCopyServer.handlerOn (fun _ => true) crossedSchedule))
        (CopyFits (BlockCopyServer.handlerOn (fun _ => true) crossedSchedule))
        (twoVolumes, countedBytes) twoBatches := by
    refine ⟨⟨first, ?_⟩, ⟨second, ?_⟩, trivial⟩
    · rw [copied]
      exact ⟨rfl, by decide +kernel⟩
    · rw [refused]
      exact ⟨by decide +kernel, by decide +kernel⟩
  have read :
      (handleCalls
        (serveCopy (BlockCopyServer.handlerOn (fun _ => true) crossedSchedule))
        (twoVolumes, countedBytes) twoBatches).2 =
        [.ok 16,
          .error (asciiBytes
            "blkcopy storage error: device index out of range")] := by
    decide +kernel
  rw [← read]
  exact copy_calls_reach_handler plainReader_documented fits (by decide) rfl
    rfl (by decide) (by decide)

end NvmeofRaft
