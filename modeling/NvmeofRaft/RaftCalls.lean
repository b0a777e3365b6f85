import NvmeofRaft.CallSession
import NvmeofRaft.RaftMessages
import NvmeofRaft.ReplicationModes
import NvmeofRaft.Startup

namespace NvmeofRaft

/-!
# Calls between the nodes

`RpcRaftTransport::append_entries` and `request_vote`
(`raft_rpc_clients.cpp`) and `dispatch_raft_method` (`raft_tcp_server.cpp`) over
one connection.  The handlers of the node behind it are parameters; what is
proved is that such a call is a call of the handler.
-/

open ProtoWire (Reader Fields plainReader plainReader_documented)

/--
The handlers of a node.  They give their response, or the text of the exception
that they throw.
-/
structure RaftHandlers (σ : Type) where
  handleAppendEntriesRequest :
    σ → AppendEntriesRequest →
      σ × Except (List UInt8) (AppendEntriesResponse × AppendTimings)
  handleRequestVoteRequest :
    σ → RequestVoteRequest → σ × Except (List UInt8) RequestVoteResponse

/--
What a failed `ParseFromArray` leaves in the message.  The server does not look
at the result of the call.
-/
structure Leftovers where
  appendEntries : List UInt8 → ProtoAppendEntriesRequest
  requestVote : List UInt8 → ProtoRequestVoteRequest

/-- `rpc_method::kAppendEntries`. -/
def kAppendEntries : List UInt8 :=
  asciiBytes "Server.HandleAppendEntriesRequest"

/-- `rpc_method::kRequestVote`. -/
def kRequestVote : List UInt8 :=
  asciiBytes "Server.HandleRequestVoteRequest"

/-- The end of a branch of `dispatch_raft_method`. -/
def dispatchedAs
    {ρ : Type}
    (serialize : ρ → List UInt8) :
    Except (List UInt8) ρ → Dispatched
  | .ok rsp => { found := .ok true, rspBody := serialize rsp }
  | .error what => { found := .error what }

/-- `dispatch_raft_method`; `others` is `dispatch_client_method`. -/
def dispatchRaftMethod
    {σ : Type}
    (reader : Reader)
    (leftovers : Leftovers)
    (handlers : RaftHandlers σ)
    (others : RpcMethodDispatcher σ) :
    RpcMethodDispatcher σ :=
  fun state serviceMethod body =>
    if serviceMethod = kAppendEntries then
      let req := (reader.parseFromArray
        (ProtoAppendEntriesRequest.fields reader) .empty body).getD
          (leftovers.appendEntries body)
      let (state, rsp) :=
        handlers.handleAppendEntriesRequest state req.fromProto
      (state, dispatchedAs (fun rsp => (rsp.1.toProto rsp.2).serialize) rsp)
    else if serviceMethod = kRequestVote then
      let req := (reader.parseFromArray
        (ProtoRequestVoteRequest.fields reader) {} body).getD
          (leftovers.requestVote body)
      let (state, rsp) := handlers.handleRequestVoteRequest state req.fromProto
      (state, dispatchedAs (fun rsp => rsp.toProto.serialize) rsp)
    else
      others state serviceMethod body

/-- A call of `append_entries` or `request_vote`. -/
inductive RaftCall where
  | appendEntries (req : AppendEntriesRequest)
  | requestVote (req : RequestVoteRequest)
  deriving Repr, DecidableEq

/-- What a call that returns `true` has got. -/
inductive RaftAnswer where
  | appendEntries (rsp : AppendEntriesResponse) (timings : AppendTimings)
  | requestVote (rsp : RequestVoteResponse)
  deriving Repr, DecidableEq

/-- The method of the call. -/
def RaftCall.serviceMethod : RaftCall → List UInt8
  | .appendEntries _ => kAppendEntries
  | .requestVote _ => kRequestVote

/-- `req_body`. -/
def RaftCall.body : RaftCall → List UInt8
  | .appendEntries req => req.toProto.serialize
  | .requestVote req => req.toProto.serialize

/-- What the caller makes of the response; `none` where it returns `false`. -/
def RaftCall.answer
    (reader : Reader)
    (call : RaftCall)
    (response : WireResponse) :
    Option RaftAnswer :=
  if response.error ≠ [] then
    none
  else
    match call with
    | .appendEntries _ =>
        (reader.parseFromArray (ProtoAppendEntriesResponse.fields reader) {}
          response.body).map fun rsp =>
            .appendEntries rsp.fromProto.1 rsp.fromProto.2
    | .requestVote _ =>
        (reader.parseFromArray (ProtoRequestVoteResponse.fields reader) {}
          response.body).map fun rsp => .requestVote rsp.fromProto

/-- `append_entries` and `request_vote`. -/
def raftStub (reader : Reader) : RpcStub RaftCall (Option RaftAnswer) where
  serviceMethod := RaftCall.serviceMethod
  body := RaftCall.body
  read := RaftCall.answer reader

section

variable {σ : Type}

/-- The handler of the call on its own: its answer, or its exception. -/
def RaftHandlers.answer
    (handlers : RaftHandlers σ)
    (state : σ) :
    RaftCall → σ × Except (List UInt8) RaftAnswer
  | .appendEntries req =>
      let (state, rsp) := handlers.handleAppendEntriesRequest state req
      (state, rsp.map fun rsp => .appendEntries rsp.1 rsp.2)
  | .requestVote req =>
      let (state, rsp) := handlers.handleRequestVoteRequest state req
      (state, rsp.map RaftAnswer.requestVote)

/-- The handler of the call, and what its caller gets: `none` is a failure. -/
def RaftHandlers.serve
    (handlers : RaftHandlers σ)
    (state : σ)
    (call : RaftCall) :
    σ × Option RaftAnswer :=
  let (next, answer) := handlers.answer state call
  (next, answer.toOption)

/-- The body of the response to a call. -/
def RaftAnswer.body : RaftAnswer → List UInt8
  | .appendEntries rsp timings => (rsp.toProto timings).serialize
  | .requestVote rsp => rsp.toProto.serialize

/-- The numbers of a request fit its message, and the message an `int`. -/
def RaftCall.Fits : RaftCall → Prop
  | .appendEntries req => req.Fits ∧ req.toProto.serialize.length < 2 ^ 31
  | .requestVote req => req.Fits

/-- The numbers of a response fit its message. -/
def RaftAnswer.Fits : RaftAnswer → Prop
  | .appendEntries rsp _ => rsp.Fits
  | .requestVote rsp => rsp.term < 2 ^ 64

/-- An answer fits its message; an exception has a text that fits its field. -/
def AnswerFits : Except (List UInt8) RaftAnswer → Prop
  | .ok answer => answer.Fits
  | .error what => what ≠ [] ∧ what.length ≤ 65535

/-- The call fits its message, and so does the answer to it. -/
def RaftHandlers.Fits
    (handlers : RaftHandlers σ)
    (state : σ)
    (call : RaftCall) : Prop :=
  call.Fits ∧ AnswerFits (handlers.answer state call).2

end

section

variable {σ : Type} {reader : Reader} {leftovers : Leftovers}
variable {handlers : RaftHandlers σ} {others : RpcMethodDispatcher σ}
variable {state : σ} {call : RaftCall} {calls : List RaftCall}
variable {request : WireRequest} {nextSeq : Nat}

theorem RaftCall.Fits.length_body
    (fits : call.Fits) :
    call.body.length < 2 ^ 31 := by
  cases call with
  | appendEntries req =>
      exact fits.2
  | requestVote req =>
      have bound := req.toProto.length_serialize_le
      show req.toProto.serialize.length < 2 ^ 31
      omega

theorem RaftCall.length_serviceMethod
    (call : RaftCall) :
    1 ≤ call.serviceMethod.length ∧ call.serviceMethod.length ≤ 65535 := by
  have appends :
      1 ≤ kAppendEntries.length ∧ kAppendEntries.length ≤ 65535 := by
    decide +kernel
  have votes : 1 ≤ kRequestVote.length ∧ kRequestVote.length ≤ 65535 := by
    decide +kernel
  cases call with
  | appendEntries req => exact appends
  | requestVote req => exact votes

/-- The server hands the request to the handler as the caller gave it. -/
theorem RaftCall.Fits.dispatched
    (fits : call.Fits)
    (documented : reader.Documented) :
    dispatchRaftMethod reader leftovers handlers others state
        call.serviceMethod call.body =
      ((handlers.answer state call).1,
        dispatchedAs RaftAnswer.body (handlers.answer state call).2) := by
  have short := fits.length_body
  cases call with
  | appendEntries req =>
      have parsed :
          reader.parseFromArray (ProtoAppendEntriesRequest.fields reader)
              .empty req.toProto.serialize =
            some req.toProto :=
        reader.parseFromArray_of_parses (req.toProto.parses documented) short
      have converted := fits.1.converted
      cases called : handlers.handleAppendEntriesRequest state req with
      | mk next rsp =>
      rw [RaftCall.serviceMethod, RaftCall.body, dispatchRaftMethod,
        if_pos rfl, parsed, RaftHandlers.answer, called]
      simp only [Option.getD_some, converted, called]
      cases rsp <;> rfl
  | requestVote req =>
      have parsed :
          reader.parseFromArray (ProtoRequestVoteRequest.fields reader) {}
              req.toProto.serialize =
            some req.toProto :=
        reader.parseFromArray_of_parses (req.toProto.parses documented) short
      have converted := RequestVoteRequest.Fits.converted fits
      cases called : handlers.handleRequestVoteRequest state req with
      | mk next rsp =>
      rw [RaftCall.serviceMethod, RaftCall.body, dispatchRaftMethod,
        if_neg (by decide +kernel), if_pos rfl, parsed, RaftHandlers.answer,
        called]
      simp only [Option.getD_some, converted, called]
      cases rsp <;> rfl

theorem RaftAnswer.length_body
    (answer : RaftAnswer) :
    answer.body.length ≤ 132 := by
  cases answer with
  | appendEntries rsp timings =>
      exact (rsp.toProto timings).length_serialize_le
  | requestVote rsp =>
      exact Nat.le_trans rsp.toProto.length_serialize_le (by decide)

theorem AnswerFits.response
    {answer : Except (List UInt8) RaftAnswer}
    (fits : AnswerFits answer)
    (number : request.seq < 2 ^ 64) :
    ((dispatchedAs RaftAnswer.body answer).response request).Fits := by
  cases answer with
  | ok answer =>
      have bound := answer.length_body
      exact ⟨number, Nat.zero_le _, Nat.lt_of_le_of_lt bound (by decide)⟩
  | error what =>
      exact ⟨number, fits.2, Nat.two_pow_pos 32⟩

/-- The caller gets what the handler gave. -/
theorem AnswerFits.answered
    (fits : AnswerFits (handlers.answer state call).2)
    (documented : reader.Documented) :
    call.answer reader
        ((dispatchedAs RaftAnswer.body
          (handlers.answer state call).2).response request) =
      (handlers.answer state call).2.toOption := by
  cases call with
  | appendEntries req =>
      rw [RaftHandlers.answer] at fits ⊢
      dsimp only at fits ⊢
      cases answered : (handlers.handleAppendEntriesRequest state req).2 with
      | error what =>
          rw [answered] at fits
          exact if_pos fits.1
      | ok rsp =>
          rw [answered] at fits
          have bound := (rsp.1.toProto rsp.2).length_serialize_le
          have parsed :=
            reader.parseFromArray_of_parses
              ((rsp.1.toProto rsp.2).parses documented) (by omega)
          have converted :=
            AppendEntriesResponse.Fits.converted fits rsp.2
          refine (if_neg fun some => some rfl).trans ?_
          exact (congrArg (Option.map _) parsed).trans
            (congrArg (fun rsp : AppendEntriesResponse × AppendTimings =>
              some (RaftAnswer.appendEntries rsp.1 rsp.2)) converted)
  | requestVote req =>
      rw [RaftHandlers.answer] at fits ⊢
      dsimp only at fits ⊢
      cases answered : (handlers.handleRequestVoteRequest state req).2 with
      | error what =>
          rw [answered] at fits
          exact if_pos fits.1
      | ok rsp =>
          rw [answered] at fits
          have bound := rsp.toProto.length_serialize_le
          have parsed :=
            reader.parseFromArray_of_parses (rsp.toProto.parses documented)
              (by omega)
          have converted := RequestVoteResponse.converted fits
          refine (if_neg fun some => some rfl).trans ?_
          exact (congrArg (Option.map _) parsed).trans
            (congrArg (fun rsp => some (RaftAnswer.requestVote rsp)) converted)

/-- A call over the wire is a call of its handler. -/
theorem RaftHandlers.Fits.serves
    (fits : handlers.Fits state call)
    (documented : reader.Documented) :
    (raftStub reader).Serves
      (dispatchRaftMethod reader leftovers handlers others) handlers.serve
      state call := by
  have named := call.length_serviceMethod
  have body := Nat.lt_trans fits.1.length_body (show 2 ^ 31 < 2 ^ 32 by decide)
  exact .of_dispatched (fun _ number => ⟨named.1, named.2, number, body⟩)
    (fits.1.dispatched documented) (fun _ number => fits.2.response number)
    (fun _ => fits.2.answered documented)

/--
A node that dials another one and makes calls on the connection reaches its
handlers: each takes the request that was given, in the order of the calls, and
the caller gets the answer that the handler gave, or none where it threw.  The
calls stay on the connection, which `call_peer` drops behind a failed one.
-/
theorem raft_calls_reach_handlers
    {client server : Socket}
    (documented : reader.Documented)
    (fits : HoldsAlong handlers.serve handlers.Fits state calls)
    (numbers : nextSeq + calls.length ≤ 2 ^ 64)
    (clientFresh : client.outgoing = [])
    (serverFresh : server.outgoing = [])
    (clientCalls : client.CallsSucceed)
    (serverCalls : server.CallsSucceed) :
    ∃ dialed written connected drained responses,
      wireWriteAll client connectRequest = .ok dialed ∧
        WireClientCodec.writeRequests { socket := dialed }
            ((raftStub reader).requests nextSeq calls) =
            .ok written ∧
          let session :=
            serveRpcConnection
              (dispatchRaftMethod reader leftovers handlers others) state
              (server.arriving written.socket.outgoing)
          session.state = (handleCalls handlers.serve state calls).1 ∧
            readConnectOk
                (written.socket.arriving session.codec.socket.outgoing) =
              .ok connected ∧
            WireClientCodec.readResponses calls.length
                { written with socket := connected } =
              .ok (responses, drained) ∧
            drained.socket.incoming = [] ∧
            List.zipWith (raftStub reader).read calls responses =
              (handleCalls handlers.serve state calls).2 :=
  have serves :=
    fits.imp fun _ _ fits => fits.serves documented
  dialed_calls serves numbers clientFresh serverFresh clientCalls serverCalls

end

/-- The end of a handler; an exception has the text `what`. -/
def handled
    {ρ : Type}
    (what : List UInt8) :
    Option ρ → Except (List UInt8) ρ
  | some rsp => .ok rsp
  | none => .error what

/-- The handlers of a server in front of the devices, with nothing in between. -/
def serverHandlers
    (what : List UInt8)
    (timings : AppendTimings) :
    RaftHandlers (Server × Devices) where
  handleAppendEntriesRequest state req :=
    let ended := state.1.serveAppend state.2 req
    ((ended.follower, ended.devices),
      handled what (ended.answer.map fun rsp => (rsp, timings)))
  handleRequestVoteRequest state req :=
    match (handleRequestVoteRequest req).run state.1 with
    | .ok rsp server => ((server, state.2), .ok rsp)
    | .error _ server => ((server, state.2), .error what)

/-- A candidate asks for a vote and sends its heartbeat. -/
def voteAndHeartbeat : List RaftCall :=
  [.requestVote firstVoteRequest,
   .appendEntries { zeroHeartbeat with term := 1 }]

/-- What a node of a fresh cluster answers to it. -/
def votedAndFollowed : List (Option RaftAnswer) :=
  [some (.requestVote { term := 1, voteGranted := true }),
   some (.appendEntries { term := 1, success := true } {})]

/--
Over the wire the node of the model votes for the candidate, and follows it.
-/
theorem candidate_is_voted_for :
    ∃ dialed written connected drained responses,
      wireWriteAll { calls := [some 0, some 3] } connectRequest = .ok dialed ∧
        WireClientCodec.writeRequests { socket := dialed }
            ((raftStub plainReader).requests 1 voteAndHeartbeat) =
            .ok written ∧
          let session :=
            serveRpcConnection
              (dispatchRaftMethod plainReader
                { appendEntries := fun _ => .empty, requestVote := fun _ => {} }
                (serverHandlers [] {}) fun state _ _ =>
                  (state, { found := .ok false }))
              (firstNode.server, fun _ => ByteImage.zeros)
              (Socket.arriving { calls := [some 1] } written.socket.outgoing)
          session.state =
              (handleCalls (serverHandlers [] {}).serve
                (firstNode.server, fun _ => ByteImage.zeros)
                voteAndHeartbeat).1 ∧
            readConnectOk
                (written.socket.arriving session.codec.socket.outgoing) =
              .ok connected ∧
            WireClientCodec.readResponses 2
                { written with socket := connected } =
              .ok (responses, drained) ∧
            drained.socket.incoming = [] ∧
            List.zipWith (raftStub plainReader).read voteAndHeartbeat
                responses =
              votedAndFollowed := by
  have vote : RaftCall.Fits (.requestVote firstVoteRequest) :=
    ⟨by decide, by decide, by decide, by decide⟩
  have heartbeat :
      RaftCall.Fits (.appendEntries { zeroHeartbeat with term := 1 }) :=
    ⟨⟨by decide, by decide, by decide, by decide, by decide, by decide,
      by decide, by decide, by decide, by decide, by decide,
      fun _ none => absurd none List.not_mem_nil⟩, by decide +kernel⟩
  have voted :
      ((serverHandlers [] {}).answer
        (firstNode.server, fun _ => ByteImage.zeros)
        (.requestVote firstVoteRequest)).2 =
        .ok (.requestVote { term := 1, voteGranted := true }) := by
    decide +kernel
  have followed :
      ((serverHandlers [] {}).answer
        ((serverHandlers [] {}).serve
          (firstNode.server, fun _ => ByteImage.zeros)
          (.requestVote firstVoteRequest)).1
        (.appendEntries { zeroHeartbeat with term := 1 })).2 =
        .ok (.appendEntries { term := 1, success := true } {}) := by
    decide +kernel
  have fits :
      HoldsAlong (serverHandlers [] {}).serve (serverHandlers [] {}).Fits
        (firstNode.server, fun _ => ByteImage.zeros) voteAndHeartbeat := by
    refine ⟨⟨vote, ?_⟩, ⟨heartbeat, ?_⟩, trivial⟩
    · rw [voted]
      exact (by decide : 1 < 2 ^ 64)
    · rw [followed]
      exact ⟨by decide, by decide, by decide⟩
  have read :
      (handleCalls (serverHandlers [] {}).serve
        (firstNode.server, fun _ => ByteImage.zeros) voteAndHeartbeat).2 =
        votedAndFollowed := by
    decide +kernel
  rw [← read]
  exact raft_calls_reach_handlers plainReader_documented fits (by decide) rfl
    rfl (by decide) (by decide)

end NvmeofRaft
