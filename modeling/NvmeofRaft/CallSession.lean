import NvmeofRaft.ServerSession

namespace NvmeofRaft

/-!
# Calls on one connection

A stub writes the requests of calls and reads the responses to them; the
dispatcher of a server hands the requests to a handler.  Where each call is one
call of the handler, calls on one connection are calls of the handler in their
order.
-/

/-- What a stub sends for a call, and what it makes of the response. -/
structure RpcStub (κ ρ : Type) where
  serviceMethod : κ → List UInt8
  body : κ → List UInt8
  read : κ → WireResponse → ρ

section

variable {σ κ ρ : Type}

/-- What `rpc_invoke` writes for the call. -/
def RpcStub.request
    (stub : RpcStub κ ρ)
    (call : κ)
    (seq : Nat) :
    WireRequest where
  serviceMethod := stub.serviceMethod call
  seq
  body := stub.body call

/-- The requests of calls one after the other, from the number `next_seq`. -/
def RpcStub.requests
    (stub : RpcStub κ ρ) :
    Nat → List κ → List WireRequest
  | _, [] =>
      []
  | nextSeq, call :: calls =>
      stub.request call nextSeq :: stub.requests (nextSeq + 1) calls

/-- A handler that is called with one after the other. -/
def handleCalls
    (handle : σ → κ → σ × ρ) :
    σ → List κ → σ × List ρ
  | state, [] =>
      (state, [])
  | state, call :: calls =>
      let (next, answer) := handle state call
      let (final, rest) := handleCalls handle next calls
      (final, answer :: rest)

/-- A property of every call, at the state in which the handler gets it. -/
def HoldsAlong
    (handle : σ → κ → σ × ρ)
    (property : σ → κ → Prop) :
    σ → List κ → Prop
  | _, [] =>
      True
  | state, call :: calls =>
      property state call ∧ HoldsAlong handle property (handle state call).1 calls

/-- A weaker property holds along the calls, too. -/
theorem HoldsAlong.imp
    {handle : σ → κ → σ × ρ}
    {property weaker : σ → κ → Prop}
    {state : σ}
    {calls : List κ}
    (holds : HoldsAlong handle property state calls)
    (implies : ∀ state call, property state call → weaker state call) :
    HoldsAlong handle weaker state calls := by
  induction calls generalizing state with
  | nil =>
      exact trivial
  | cons call calls inductionHypothesis =>
      exact ⟨implies state call holds.1, inductionHypothesis holds.2⟩

/-- The call over the wire is a call of the handler. -/
structure RpcStub.Serves
    (stub : RpcStub κ ρ)
    (dispatch : RpcMethodDispatcher σ)
    (handle : σ → κ → σ × ρ)
    (state : σ)
    (call : κ) : Prop where
  request : ∀ seq < 2 ^ 64, (stub.request call seq).Fits
  reached :
    (dispatch state (stub.serviceMethod call) (stub.body call)).1 =
      (handle state call).1
  response :
    ∀ seq < 2 ^ 64,
      ((dispatch state (stub.serviceMethod call)
        (stub.body call)).2.response (stub.request call seq)).Fits
  read :
    ∀ seq,
      stub.read call
          ((dispatch state (stub.serviceMethod call)
            (stub.body call)).2.response (stub.request call seq)) =
        (handle state call).2

variable {stub : RpcStub κ ρ} {dispatch : RpcMethodDispatcher σ}
variable {handle : σ → κ → σ × ρ} {state : σ} {call : κ} {calls : List κ}
variable {nextSeq : Nat}

theorem RpcStub.Serves.of_dispatched
    {dispatched : Dispatched}
    (request : ∀ seq < 2 ^ 64, (stub.request call seq).Fits)
    (reached :
      dispatch state (stub.serviceMethod call) (stub.body call) =
        ((handle state call).1, dispatched))
    (response :
      ∀ request : WireRequest,
        request.seq < 2 ^ 64 → (dispatched.response request).Fits)
    (read :
      ∀ request,
        stub.read call (dispatched.response request) = (handle state call).2) :
    stub.Serves dispatch handle state call where
  request := request
  reached := congrArg Prod.fst reached
  response seq number := by
    rw [reached]
    exact response _ number
  read seq := by
    rw [reached]
    exact read _

/-- The server answers with what the handler answers. -/
theorem requests_answered
    (serves : HoldsAlong handle (stub.Serves dispatch handle) state calls)
    (numbers : nextSeq + calls.length ≤ 2 ^ 64) :
    ∃ responses,
      answers dispatch state (stub.requests nextSeq calls) =
          ((handleCalls handle state calls).1, responses) ∧
        responses.length = calls.length ∧
        (∀ request ∈ stub.requests nextSeq calls, request.Fits) ∧
        (∀ response ∈ responses, response.Fits) ∧
        List.zipWith stub.read calls responses =
          (handleCalls handle state calls).2 := by
  induction calls generalizing state nextSeq with
  | nil =>
      exact ⟨[], rfl, rfl, fun _ none => absurd none List.not_mem_nil,
        fun _ none => absurd none List.not_mem_nil, rfl⟩
  | cons call calls inductionHypothesis =>
      rw [List.length_cons] at numbers
      obtain ⟨first, further⟩ := serves
      have number : nextSeq < 2 ^ 64 := by omega
      obtain ⟨responses, answered, count, requests, fit, read⟩ :=
        inductionHypothesis further
          (show nextSeq + 1 + calls.length ≤ 2 ^ 64 by omega)
      have fits := first.response nextSeq number
      refine ⟨_ :: responses, ?_, congrArg Nat.succ count,
        List.forall_mem_cons.mpr ⟨first.request nextSeq number, requests⟩,
        List.forall_mem_cons.mpr ⟨fits, fit⟩, ?_⟩
      · rw [← first.reached] at answered
        rw [RpcStub.requests, answers]
        dsimp only [RpcStub.request]
        rw [answered]
        refine (if_neg (Nat.not_lt.mpr fits.error)).trans ?_
        rw [first.reached]
        rfl
      · rw [List.zipWith_cons_cons, first.read, read]
        rfl

/--
A client that dials a server and makes calls on the connection reaches the
handler with these calls, in their order, and gets its answers, whatever the
calls of both sockets split.
-/
theorem dialed_calls
    {client server : Socket}
    (serves : HoldsAlong handle (stub.Serves dispatch handle) state calls)
    (numbers : nextSeq + calls.length ≤ 2 ^ 64)
    (clientFresh : client.outgoing = [])
    (serverFresh : server.outgoing = [])
    (clientCalls : client.CallsSucceed)
    (serverCalls : server.CallsSucceed) :
    ∃ dialed written connected drained responses,
      wireWriteAll client connectRequest = .ok dialed ∧
        WireClientCodec.writeRequests { socket := dialed }
            (stub.requests nextSeq calls) =
            .ok written ∧
          let session :=
            serveRpcConnection dispatch state
              (server.arriving written.socket.outgoing)
          session.state = (handleCalls handle state calls).1 ∧
            readConnectOk
                (written.socket.arriving session.codec.socket.outgoing) =
              .ok connected ∧
            WireClientCodec.readResponses calls.length
                { written with socket := connected } =
              .ok (responses, drained) ∧
            drained.socket.incoming = [] ∧
            List.zipWith stub.read calls responses =
              (handleCalls handle state calls).2 := by
  obtain ⟨responses, answered, count, requests, fit, read⟩ :=
    requests_answered serves numbers
  obtain ⟨dialed, written, connects, wrote, left, final, out⟩ :=
    @dialed_session σ dispatch state client server
      (stub.requests nextSeq calls) requests clientFresh serverFresh
      clientCalls serverCalls
  rw [answered] at final out
  obtain ⟨connected, drained, accepted, collected, empty⟩ :=
    answers_read fit left
  rw [count] at collected
  rw [← out] at accepted
  exact ⟨dialed, written, connected, drained, responses, connects, wrote,
    final, accepted, collected, empty, read⟩

end

end NvmeofRaft
