import Mathlib.Data.List.Infix
import NvmeofRaft.RequestFraming

namespace NvmeofRaft

/-!
# Sessions of the RPC server

`serve_rpc_connection` (`raft_rpc_listener.cpp`) on one TCP connection: the
handshake of `DialHTTP`, then one request after the other until a frame cannot
be read or an answer cannot be written.  The dispatcher of the server is a
parameter, a function on the state of the program behind it.
-/

/-- The bytes of an ASCII text. -/
def asciiBytes (text : String) : List UInt8 :=
  text.toList.map fun letter => UInt8.ofNat letter.toNat

/-- The bytes end with an empty line. -/
def endsBlank (bytes : List UInt8) : Bool :=
  [10, 10].isSuffixOf bytes

/--
The loop of `consume_http_connect_request` and of `http_connect_handshake`,
with the bytes in `buf` and the room that is left in it.
-/
def readHandshake
    (room : Nat)
    (socket : Socket)
    (buf : List UInt8) :
    Except WireExn (List UInt8 × Socket) :=
  match room with
  | 0 =>
      .ok (buf, socket)
  | room + 1 =>
      match socket.nextCall 1, socket.incoming with
      | none, _ =>
          .error .readFailed
      | some _, [] =>
          .error .readFailed
      | some _, byte :: rest =>
          let socket := { socket.passCall with incoming := rest }
          if endsBlank (buf ++ [byte]) then
            .ok (buf ++ [byte], socket)
          else
            readHandshake room socket (buf ++ [byte])

/-- `consume_http_connect_request`, whose buffer holds 255 bytes. -/
def consumeHttpConnectRequest
    (socket : Socket) :
    Except WireExn Socket := do
  let (_, socket) ← readHandshake 255 socket []
  return socket

/-- What `send_http_connect_ok` writes. -/
def connectOk : List UInt8 :=
  asciiBytes "HTTP/1.0 200 Connected to Go RPC\n\n"

/-- `send_http_connect_ok`. -/
def sendHttpConnectOk
    (socket : Socket) :
    Except WireExn Socket :=
  wireWriteAll socket connectOk

/-- The method was found or not, or the dispatcher threw; and `rsp_body`. -/
structure Dispatched where
  found : Except (List UInt8) Bool
  rspBody : List UInt8 := []

/-- `RpcMethodDispatcher`, on the state of the program. -/
abbrev RpcMethodDispatcher (σ : Type) :=
  σ → List UInt8 → List UInt8 → σ × Dispatched

/-- The `error` of an answer. -/
def Dispatched.error
    (dispatched : Dispatched)
    (serviceMethod : List UInt8) :
    List UInt8 :=
  match dispatched.found with
  | .ok true => []
  | .ok false => asciiBytes "unregistered method: " ++ serviceMethod
  | .error what => what

/-- The answer to a request. -/
def Dispatched.response
    (dispatched : Dispatched)
    (request : WireRequest) :
    WireResponse where
  seq := request.seq
  error := dispatched.error request.serviceMethod
  body := dispatched.rspBody

/-- The program behind a connection, and the connection. -/
structure ServerSession (σ : Type) where
  state : σ
  codec : WireServerCodec

/-- The loop of `serve_rpc_connection`. -/
def serveRequests
    {σ : Type}
    (dispatch : RpcMethodDispatcher σ)
    (session : ServerSession σ) :
    ServerSession σ :=
  match _ : session.codec.readRequest with
  | .error _ =>
      session
  | .ok (request, codec) =>
      let (state, dispatched) :=
        dispatch session.state request.serviceMethod request.body
      let response := dispatched.response request
      match
        _ : codec.writeResponse response.seq response.error response.body with
      | .error _ =>
          { state, codec }
      | .ok codec =>
          serveRequests dispatch { state, codec }
termination_by session.codec.socket.incoming.length
decreasing_by
  rename_i _ read wrote
  have bytes := (readRequest_takes read).2.1
  have kept := writeResponse_incoming wrote
  have lengths := congrArg List.length bytes
  rw [List.length_append, WireRequest.length_bytes] at lengths
  rw [kept]
  omega

/-- `serve_rpc_connection`, up to the close of the connection. -/
def serveRpcConnection
    {σ : Type}
    (dispatch : RpcMethodDispatcher σ)
    (state : σ)
    (socket : Socket) :
    ServerSession σ :=
  match (consumeHttpConnectRequest socket).bind sendHttpConnectOk with
  | .error _ => { state, codec := { socket } }
  | .ok socket => serveRequests dispatch { state, codec := { socket } }

/--
The answers to requests, one after the other.  An answer whose error does not
fit its field is not written, and ends the connection.
-/
def answers
    {σ : Type}
    (dispatch : RpcMethodDispatcher σ) :
    σ → List WireRequest → σ × List WireResponse
  | state, [] =>
      (state, [])
  | state, request :: requests =>
      let (next, dispatched) :=
        dispatch state request.serviceMethod request.body
      let response := dispatched.response request
      if 0xFFFF < response.error.length then
        (next, [])
      else
        let (final, others) := answers dispatch next requests
        (final, response :: others)

section

variable {σ : Type} {dispatch : RpcMethodDispatcher σ}

/-- Without a request that can be read the loop ends. -/
theorem serveRequests_ends
    {session : ServerSession σ}
    {failure : WireExn}
    (read : session.codec.readRequest = .error failure) :
    serveRequests dispatch session = session := by
  rw [serveRequests]
  split
  · rfl
  · rename_i again
    rw [read] at again
    cases again

/-- One turn of the loop. -/
theorem serveRequests_turn
    {session : ServerSession σ}
    {request : WireRequest}
    {codec : WireServerCodec}
    (read : session.codec.readRequest = .ok (request, codec)) :
    serveRequests dispatch session =
      match dispatch session.state request.serviceMethod request.body with
      | (state, dispatched) =>
          let response := dispatched.response request
          match
            codec.writeResponse response.seq response.error response.body with
          | .error _ => { state, codec }
          | .ok codec => serveRequests dispatch { state, codec } := by
  rw [serveRequests]
  split
  · rename_i again
    rw [read] at again
    cases again
  · rename_i again
    rw [read] at again
    cases again
    dsimp only
    split
    · rename_i wrote
      rw [wrote]
    · rename_i wrote
      rw [wrote]

/-- The loop answers the requests of the stream. -/
theorem serveRequests_spec
    {requests : List WireRequest}
    {tail : List UInt8} :
    ∀ {session : ServerSession σ},
      Framed session.codec.socket.incoming requests tail →
      session.codec.socket.CallsSucceed →
      (serveRequests dispatch session).state =
          (answers dispatch session.state requests).1 ∧
        (serveRequests dispatch session).codec.socket.outgoing =
          session.codec.socket.outgoing ++
            (answers dispatch session.state requests).2.flatMap
              WireResponse.bytes := by
  induction requests with
  | nil =>
      intro session framed succeed
      cases read : session.codec.readRequest with
      | error failure =>
          rw [serveRequests_ends read]
          exact ⟨rfl, (List.append_nil _).symm⟩
      | ok result =>
          obtain ⟨fits, bytes, -⟩ := readRequest_takes read
          have whole : session.codec.socket.incoming = tail := framed.stream
          exact absurd (whole.symm.trans bytes) (framed.ended _ _ fits)
  | cons request requests inductionHypothesis =>
      intro session framed succeed
      have bytes := framed.stream
      rw [List.flatMap_cons, List.append_assoc] at bytes
      have fits := framed.fits request List.mem_cons_self
      obtain ⟨codec, read, holds, outgoing⟩ :=
        readRequest_leaves fits ⟨bytes, succeed⟩
      rw [serveRequests_turn read, answers]
      cases called :
          dispatch session.state request.serviceMethod request.body with
      | mk next dispatched =>
      dsimp only
      by_cases long : 0xFFFF < (dispatched.response request).error.length
      · have refused :
            codec.writeResponse (dispatched.response request).seq
                (dispatched.response request).error
                (dispatched.response request).body =
              .error .errorTooLong := by
          rw [WireServerCodec.writeResponse, if_pos long]
          rfl
        rw [refused, if_pos long]
        exact ⟨rfl, outgoing.trans (List.append_nil _).symm⟩
      · obtain ⟨after, wrote, left, written⟩ :=
          writeResponse_ends holds.succeed long
        have incoming := (writeResponse_incoming wrote).trans holds.incoming
        rw [wrote, if_neg long]
        have rest : Framed after.socket.incoming requests tail :=
          ⟨incoming, fun item inside =>
            framed.fits item (List.mem_cons_of_mem _ inside), framed.ended⟩
        obtain ⟨state, out⟩ :=
          @inductionHypothesis { state := next, codec := after } rest left
        refine ⟨state, out.trans ?_⟩
        dsimp only
        rw [written, outgoing, List.flatMap_cons, List.append_assoc]

/--
What the handshake takes from a stream: all up to the first empty line, or as
much as the buffer holds.
-/
structure Greeting (front : List UInt8) : Prop where
  whole : endsBlank front = true ∨ front.length = 255
  room : front.length ≤ 255
  first :
    ∀ shorter,
      shorter <+: front → shorter ≠ front → endsBlank shorter = false

/-- The handshake takes the rest of a greeting. -/
theorem readHandshake_greets
    {rest : List UInt8} :
    ∀ {more buf : List UInt8} {room : Nat} {socket : Socket},
      buf.length + room = 255 →
      Greeting (buf ++ more) →
      (more = [] → room = 0) →
      socket.Holds (more ++ rest) →
      ∃ after,
        readHandshake room socket buf = .ok (buf ++ more, after) ∧
          after.Holds rest ∧ after.outgoing = socket.outgoing := by
  intro more
  induction more with
  | nil =>
      intro buf room socket width greets full holds
      rw [full rfl, List.append_nil]
      exact ⟨socket, rfl, holds, rfl⟩
  | cons byte more inductionHypothesis =>
      intro buf room socket width greets full holds
      have within := greets.room
      rw [List.length_append, List.length_cons] at within
      obtain ⟨room, rfl⟩ : ∃ left, room = left + 1 :=
        Nat.exists_eq_add_one.mpr (by omega)
      have split : buf ++ byte :: more = (buf ++ [byte]) ++ more := by
        rw [List.append_assoc, List.singleton_append]
      rw [split] at greets
      obtain ⟨moved, goes⟩ := holds.succeed.nextCall 1
      have arrived : socket.incoming = byte :: (more ++ rest) := holds.incoming
      rw [readHandshake, goes, arrived, split]
      dsimp only
      split
      · rename_i blank
        -- No front of a greeting but the whole one ends with an empty line.
        have last : more = [] := by
          by_contra others
          have proper : buf ++ [byte] ≠ (buf ++ [byte]) ++ more :=
            fun same => others (List.self_eq_append_right.mp same)
          rw [greets.first _ (List.prefix_append _ _) proper] at blank
          cases blank
        subst last
        rw [List.append_nil]
        exact ⟨_, rfl, ⟨rfl, holds.succeed.passCall⟩, rfl⟩
      · rename_i unfinished
        have full : more = [] → room = 0 := by
          rintro rfl
          rw [List.append_nil] at greets
          rcases greets.whole with blank | filled
          · exact absurd blank unfinished
          · rw [List.length_append, List.length_singleton] at filled
            omega
        have width' : (buf ++ [byte]).length + room = 255 := by
          rw [List.length_append, List.length_singleton]
          omega
        exact inductionHypothesis width' greets full
          ⟨rfl, holds.succeed.passCall⟩

/-- What the handshake has taken is a greeting. -/
theorem readHandshake_takes :
    ∀ {room : Nat} {buf front : List UInt8} {socket after : Socket},
      buf.length + room = 255 →
      (∀ shorter, shorter <+: buf → endsBlank shorter = false) →
      readHandshake room socket buf = .ok (front, after) →
      ∃ more,
        front = buf ++ more ∧ more <+: socket.incoming ∧ Greeting front := by
  intro room
  induction room with
  | zero =>
      intro buf front socket after width unfinished read
      cases read
      exact ⟨[], (List.append_nil _).symm, List.nil_prefix, Or.inr width,
        le_of_eq width, fun shorter within _ => unfinished shorter within⟩
  | succ room inductionHypothesis =>
      intro buf front socket after width unfinished read
      rw [readHandshake] at read
      split at read
      · cases read
      · cases read
      · rename_i byte rest _ arrived
        have width' : (buf ++ [byte]).length + room = 255 := by
          rw [List.length_append, List.length_singleton]
          omega
        have within : [byte] <+: socket.incoming := by
          rw [arrived]
          exact ⟨rest, rfl⟩
        have shorter :
            ∀ shorter,
              shorter <+: buf ++ [byte] → shorter ≠ buf ++ [byte] →
              endsBlank shorter = false := by
          intro shorter inside proper
          rcases List.prefix_concat_iff.mp inside with same | before
          · exact absurd same proper
          · exact unfinished shorter before
        dsimp only at read
        split at read
        · rename_i blank
          cases read
          exact ⟨[byte], rfl, within, Or.inl blank,
            (Nat.le_add_right _ _).trans_eq width', shorter⟩
        · rename_i open'
          have unfinished' :
              ∀ shorter,
                shorter <+: buf ++ [byte] → endsBlank shorter = false := by
            intro other inside
            by_cases same : other = buf ++ [byte]
            · exact same ▸ Bool.eq_false_iff.mpr open'
            · exact shorter other inside same
          obtain ⟨more, rfl, inside, greets⟩ :=
            inductionHypothesis width' unfinished' read
          refine ⟨byte :: more, ?_, ?_, greets⟩
          · rw [List.append_assoc, List.singleton_append]
          · rw [arrived]
            exact (List.cons_prefix_cons).mpr ⟨rfl, inside⟩

/-- A stream in which the handshake ends. -/
theorem consume_greeting
    {socket : Socket}
    {greeting stream : List UInt8}
    (greets : Greeting greeting)
    (holds : socket.Holds (greeting ++ stream)) :
    ∃ after,
      readHandshake 255 socket [] = .ok (greeting, after) ∧
        after.Holds stream ∧ after.outgoing = socket.outgoing := by
  refine readHandshake_greets (Nat.zero_add 255) greets ?_ holds
  rintro rfl
  rcases greets.whole with blank | filled
  · cases blank
  · cases filled

/-- After a greeting the requests that are whole are answered. -/
theorem session_greeted
    {dispatch : RpcMethodDispatcher σ}
    {state : σ}
    {socket : Socket}
    {greeting stream : List UInt8}
    (succeed : socket.CallsSucceed)
    (arrived : socket.incoming = greeting ++ stream)
    (greets : Greeting greeting) :
    ∃ requests tail,
      Framed stream requests tail ∧
        (∀ others rest, Framed stream others rest → others = requests) ∧
          (serveRpcConnection dispatch state socket).state =
              (answers dispatch state requests).1 ∧
            (serveRpcConnection dispatch state socket).codec.socket.outgoing =
              socket.outgoing ++ connectOk ++
                (answers dispatch state requests).2.flatMap
                  WireResponse.bytes := by
  obtain ⟨requests, tail, framed⟩ := framed_exists stream
  obtain ⟨after, read, holds, outgoing⟩ :=
    consume_greeting greets ⟨arrived, succeed⟩
  obtain ⟨calls, left, wrote⟩ :=
    wireWriteAll_spec after connectOk holds.succeed
  refine ⟨requests, tail, framed,
    fun others rest other => (framed.unique other).1.symm, ?_⟩
  have handshake :
      (consumeHttpConnectRequest socket).bind sendHttpConnectOk =
        .ok { after with outgoing := after.outgoing ++ connectOk, calls } := by
    simp only [consumeHttpConnectRequest, read, bind, Except.bind, pure,
      Except.pure, sendHttpConnectOk, wrote]
  have framed' :
      Framed ({ after with
        outgoing := after.outgoing ++ connectOk
        calls } : Socket).incoming requests tail := by
    rw [holds.incoming]
    exact framed
  rw [serveRpcConnection, handshake]
  dsimp only
  obtain ⟨final, out⟩ :=
    @serveRequests_spec σ dispatch requests tail
      { state
        codec := { socket := { after with
          outgoing := after.outgoing ++ connectOk
          calls } } } framed' left
  refine ⟨final, out.trans ?_⟩
  dsimp only
  rw [outgoing]

/-- Without a greeting the session ends before it has written. -/
theorem session_ungreeted
    {dispatch : RpcMethodDispatcher σ}
    {state : σ}
    {socket : Socket}
    (none : ∀ front, front <+: socket.incoming → ¬ Greeting front) :
    (serveRpcConnection dispatch state socket).state = state ∧
      (serveRpcConnection dispatch state socket).codec.socket.outgoing =
        socket.outgoing := by
  have fails :
      ∃ failure, readHandshake 255 socket [] = .error failure := by
    cases read : readHandshake 255 socket [] with
    | error failure => exact ⟨failure, rfl⟩
    | ok result =>
        have empty :
            ∀ shorter,
              shorter <+: ([] : List UInt8) → endsBlank shorter = false := by
          intro shorter inside
          rw [List.prefix_nil.mp inside]
          rfl
        obtain ⟨more, same, inside, greets⟩ :=
          readHandshake_takes (Nat.zero_add 255) empty read
        rw [List.nil_append] at same
        exact absurd greets (none _ (same ▸ inside))
  obtain ⟨failure, read⟩ := fails
  have handshake :
      (consumeHttpConnectRequest socket).bind sendHttpConnectOk =
        .error failure := by
    simp only [consumeHttpConnectRequest, read, bind, Except.bind]
  rw [serveRpcConnection, handshake]
  exact ⟨rfl, rfl⟩

/--
A session answers what arrives: after a greeting, the requests that are whole
in the stream, each once and in their order, up to an answer whose error does
not fit its field, and nothing behind them; without a greeting, nothing.
-/
theorem session_answers_requests
    {dispatch : RpcMethodDispatcher σ}
    {state : σ}
    {socket : Socket}
    (succeed : socket.CallsSucceed) :
    (∀ greeting stream,
        socket.incoming = greeting ++ stream →
        Greeting greeting →
        ∃ requests tail,
          Framed stream requests tail ∧
            (∀ others rest, Framed stream others rest → others = requests) ∧
              (serveRpcConnection dispatch state socket).state =
                  (answers dispatch state requests).1 ∧
                (serveRpcConnection dispatch state
                    socket).codec.socket.outgoing =
                  socket.outgoing ++ connectOk ++
                    (answers dispatch state requests).2.flatMap
                      WireResponse.bytes) ∧
      ((∀ front, front <+: socket.incoming → ¬ Greeting front) →
        (serveRpcConnection dispatch state socket).state = state ∧
          (serveRpcConnection dispatch state socket).codec.socket.outgoing =
            socket.outgoing) :=
  ⟨fun _ _ arrived greets => session_greeted succeed arrived greets,
    session_ungreeted⟩

end

/-- What `http_connect_handshake` writes. -/
def connectRequest : List UInt8 :=
  asciiBytes "CONNECT /_goRPC_ HTTP/1.0\n\n"

/-- The exceptions of `http_connect_handshake`. -/
inductive DialExn where
  | wire (exn : WireExn)
  | unexpectedResponse (resp : List UInt8)
  deriving Repr, DecidableEq

/-- The part of `http_connect_handshake` behind its write. -/
def readConnectOk
    (socket : Socket) :
    Except DialExn Socket :=
  match readHandshake 255 socket [] with
  | .error exn => .error (.wire exn)
  | .ok (resp, socket) =>
      if asciiBytes "200" <:+: resp then
        .ok socket
      else
        .error (.unexpectedResponse resp)

/-- Both texts of the handshake end where they first have an empty line. -/
theorem greeting_of_fronts
    {front : List UInt8}
    (checked :
      endsBlank front = true ∧
        front.length ≤ 255 ∧
          ∀ shorter ∈ front.inits,
            shorter ≠ front → endsBlank shorter = false) :
    Greeting front where
  whole := Or.inl checked.1
  room := checked.2.1
  first shorter inside := checked.2.2 shorter ((List.mem_inits _ _).mpr inside)

theorem connectRequest_greets : Greeting connectRequest :=
  greeting_of_fronts (by decide +kernel)

theorem connectOk_greets : Greeting connectOk :=
  greeting_of_fronts (by decide +kernel)

/-- Requests that are written one after the other leave a socket that works. -/
theorem writeRequests_leaves
    {requests : List WireRequest} :
    ∀ {client : WireClientCodec},
      (∀ request ∈ requests, request.Fits) →
      client.socket.CallsSucceed →
      ∃ after,
        client.writeRequests requests = .ok after ∧
          after.socket.CallsSucceed ∧
            after.socket.outgoing =
              client.socket.outgoing ++
                requests.flatMap WireRequest.bytes := by
  induction requests with
  | nil =>
      intro client _ succeed
      exact ⟨client, rfl, succeed, (List.append_nil _).symm⟩
  | cons request requests inductionHypothesis =>
      intro client fits succeed
      obtain ⟨next, wrote, left, outgoing⟩ :=
        writeRequest_spec (fits request List.mem_cons_self) succeed
      obtain ⟨after, rest, leftAfter, outgoingAfter⟩ :=
        inductionHypothesis
          (fun other inside => fits other (List.mem_cons_of_mem _ inside)) left
      refine ⟨after, ?_, leftAfter, ?_⟩
      · rw [WireClientCodec.writeRequests] at rest ⊢
        simp only [feed, wrote, bind, Except.bind, rest]
      · rw [outgoingAfter, outgoing, List.append_assoc, List.flatMap_cons]

/-- The answers to requests have their numbers, if all of them are written. -/
theorem answers_numbers
    {σ : Type}
    {dispatch : RpcMethodDispatcher σ}
    {requests : List WireRequest} :
    ∀ {state : σ},
      (∀ state, ∀ request ∈ requests,
        ((dispatch state request.serviceMethod
          request.body).2.response request).Fits) →
      (answers dispatch state requests).2.map WireResponse.seq =
          requests.map WireRequest.seq ∧
        ∀ response ∈ (answers dispatch state requests).2, response.Fits := by
  induction requests with
  | nil =>
      intro state _
      exact ⟨rfl, fun _ none => absurd none List.not_mem_nil⟩
  | cons request requests inductionHypothesis =>
      intro state fit
      have short := fit state request List.mem_cons_self
      obtain ⟨numbers, fits⟩ :=
        @inductionHypothesis
          (dispatch state request.serviceMethod request.body).1
          fun state other inside =>
            fit state other (List.mem_cons_of_mem _ inside)
      rw [answers]
      dsimp only
      rw [if_neg (Nat.not_lt.mpr short.error)]
      exact ⟨congrArg (request.seq :: ·) numbers,
        List.forall_mem_cons.mpr ⟨short, fits⟩⟩

/-- The session of a server that is dialed answers the requests. -/
theorem dialed_session
    {σ : Type}
    {dispatch : RpcMethodDispatcher σ}
    {state : σ}
    {client server : Socket}
    {requests : List WireRequest}
    (fits : ∀ request ∈ requests, request.Fits)
    (clientFresh : client.outgoing = [])
    (serverFresh : server.outgoing = [])
    (clientCalls : client.CallsSucceed)
    (serverCalls : server.CallsSucceed) :
    ∃ dialed written,
      wireWriteAll client connectRequest = .ok dialed ∧
        WireClientCodec.writeRequests { socket := dialed } requests =
            .ok written ∧
          written.socket.CallsSucceed ∧
            let session := serveRpcConnection dispatch state
              (server.arriving written.socket.outgoing)
            session.state = (answers dispatch state requests).1 ∧
              session.codec.socket.outgoing =
                connectOk ++
                  (answers dispatch state requests).2.flatMap
                    WireResponse.bytes := by
  obtain ⟨calls, left, dialed⟩ :=
    wireWriteAll_spec client connectRequest clientCalls
  obtain ⟨written, wrote, leftWritten, outgoing⟩ :=
    @writeRequests_leaves requests
      { socket := { client with
        outgoing := client.outgoing ++ connectRequest, calls } } fits left
  dsimp only at outgoing
  rw [clientFresh, List.nil_append] at outgoing
  have framed : Framed (requests.flatMap WireRequest.bytes) requests [] := by
    refine ⟨(List.append_nil _).symm, fits, fun request rest _ same => ?_⟩
    have lengths := congrArg List.length same
    rw [List.length_append, request.length_bytes, List.length_nil] at lengths
    omega
  obtain ⟨_, _, _, unique, final, out⟩ :=
    @session_greeted σ dispatch state
      (server.arriving written.socket.outgoing) connectRequest _ serverCalls
      outgoing connectRequest_greets
  obtain rfl := unique requests [] framed
  refine ⟨_, written, dialed, wrote, leftWritten, final, ?_⟩
  rw [out]
  show server.outgoing ++ connectOk ++ _ = _
  rw [serverFresh, List.nil_append]

/-- A client reads the answers of a session. -/
theorem answers_read
    {codec : WireClientCodec}
    {responses : List WireResponse}
    (fits : ∀ response ∈ responses, response.Fits)
    (succeed : codec.socket.CallsSucceed) :
    ∃ connected drained,
      readConnectOk (codec.socket.arriving
          (connectOk ++ responses.flatMap WireResponse.bytes)) =
          .ok connected ∧
        WireClientCodec.readResponses responses.length
            { codec with socket := connected } =
            .ok (responses, drained) ∧
          drained.socket.incoming = [] := by
  obtain ⟨connected, read, holds, -⟩ :=
    @consume_greeting
      (codec.socket.arriving
        (connectOk ++ responses.flatMap WireResponse.bytes))
      connectOk _ connectOk_greets ⟨rfl, succeed⟩
  have accepted :
      readConnectOk (codec.socket.arriving
          (connectOk ++ responses.flatMap WireResponse.bytes)) =
        .ok connected := by
    rw [readConnectOk, read]
    exact if_pos (by decide +kernel)
  rw [← List.append_nil (List.flatMap WireResponse.bytes _)] at holds
  obtain ⟨drained, collected, empty⟩ :=
    collect_spec WireClientCodec.socket
      (fun _ _ _ => readResponse_spec) fits
      { codec with socket := connected } holds
  exact ⟨connected, drained, accepted, collected, empty.incoming⟩

/--
A client that dials a server and sends requests gets the dispatcher's answers
to them, under their numbers and in their order, whatever the calls of both
sockets split, as long as every answer fits its fields.
-/
theorem dialed_requests_answered
    {σ : Type}
    {dispatch : RpcMethodDispatcher σ}
    {state : σ}
    {client server : Socket}
    {requests : List WireRequest}
    (fits : ∀ request ∈ requests, request.Fits)
    (answersFit :
      ∀ state, ∀ request ∈ requests,
        ((dispatch state request.serviceMethod
          request.body).2.response request).Fits)
    (clientFresh : client.outgoing = [])
    (serverFresh : server.outgoing = [])
    (clientCalls : client.CallsSucceed)
    (serverCalls : server.CallsSucceed) :
    ∃ dialed written connected drained,
      wireWriteAll client connectRequest = .ok dialed ∧
        WireClientCodec.writeRequests { socket := dialed } requests =
            .ok written ∧
          let session := serveRpcConnection dispatch state
            (server.arriving written.socket.outgoing)
          session.state = (answers dispatch state requests).1 ∧
            readConnectOk
                (written.socket.arriving session.codec.socket.outgoing) =
              .ok connected ∧
            WireClientCodec.readResponses requests.length
                { written with socket := connected } =
              .ok ((answers dispatch state requests).2, drained) ∧
            drained.socket.incoming = [] ∧
            (answers dispatch state requests).2.map WireResponse.seq =
              requests.map WireRequest.seq := by
  obtain ⟨dialed, written, connects, wrote, left, final, out⟩ :=
    @dialed_session σ dispatch state client server requests fits clientFresh
      serverFresh clientCalls serverCalls
  obtain ⟨numbers, answered⟩ :=
    @answers_numbers σ dispatch requests state answersFit
  obtain ⟨connected, drained, accepted, collected, empty⟩ :=
    answers_read answered left
  have count := congrArg List.length numbers
  rw [List.length_map, List.length_map] at count
  rw [count] at collected
  rw [← out] at accepted
  exact ⟨dialed, written, connected, drained, connects, wrote, final, accepted,
    collected, empty, numbers⟩

/-- A server without methods. -/
def noMethods : RpcMethodDispatcher Unit :=
  fun state _ _ => (state, { found := .ok false })

/-- A call of a method with an empty body. -/
def unknownCall : WireRequest where
  serviceMethod := asciiBytes "Server.Stop"
  seq := 7
  body := []

theorem unknownCall_fits : unknownCall.Fits :=
  ⟨by decide +kernel, by decide +kernel, by decide, by decide⟩

/-- The answer to it. -/
def unregistered : WireResponse where
  seq := 7
  error := asciiBytes "unregistered method: Server.Stop"
  body := []

/-- The answer is written, and the byte behind the request is not read. -/
theorem unknown_call_answered :
    (serveRpcConnection noMethods () {
      incoming := connectRequest ++ (unknownCall.bytes ++ [0])
    }).codec.socket.outgoing = connectOk ++ unregistered.bytes := by
  have framed : Framed (unknownCall.bytes ++ [0]) [unknownCall] [0] := by
    refine ⟨?_, ?_, fun request rest _ same => ?_⟩
    · rw [List.flatMap_singleton]
    · intro request inside
      rw [List.mem_singleton.mp inside]
      exact unknownCall_fits
    · have lengths := congrArg List.length same
      rw [List.length_append, request.length_bytes,
        List.length_singleton] at lengths
      omega
  obtain ⟨requests, tail, -, unique, -, out⟩ :=
    (@session_answers_requests Unit noMethods ()
      { incoming := connectRequest ++ (unknownCall.bytes ++ [0]) }
      List.not_mem_nil).1 connectRequest _ rfl connectRequest_greets
  obtain rfl := unique [unknownCall] [0] framed
  rw [out]
  decide +kernel

/-- A client gets the answer. -/
theorem unknown_call_round_trip :
    ∃ dialed written connected drained,
      wireWriteAll { calls := [some 0, some 3] } connectRequest = .ok dialed ∧
        WireClientCodec.writeRequests { socket := dialed } [unknownCall] =
            .ok written ∧
          let session := serveRpcConnection noMethods ()
            (Socket.arriving { calls := [some 1] } written.socket.outgoing)
          session.state = () ∧
            readConnectOk
                (written.socket.arriving session.codec.socket.outgoing) =
              .ok connected ∧
            WireClientCodec.readResponses 1
                { written with socket := connected } =
              .ok ([unregistered], drained) ∧
            drained.socket.incoming = [] ∧ [7] = [unknownCall.seq] := by
  have fits : ∀ request ∈ [unknownCall], request.Fits := by
    intro request inside
    rw [List.mem_singleton.mp inside]
    exact unknownCall_fits
  have answersFit :
      ∀ state, ∀ request ∈ [unknownCall],
        ((noMethods state request.serviceMethod
          request.body).2.response request).Fits := by
    rintro ⟨⟩ request inside
    rw [List.mem_singleton.mp inside]
    exact ⟨by decide, by decide +kernel, by decide⟩
  exact dialed_requests_answered fits answersFit rfl rfl (by decide)
    (by decide)

end NvmeofRaft
