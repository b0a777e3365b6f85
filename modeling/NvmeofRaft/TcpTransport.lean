import NvmeofRaft.RpcClients
import NvmeofRaft.WireCodec

namespace NvmeofRaft

/-!
# The TCP connection

`rpc_invoke` (`raft_tcp_transport.cpp`) against `serve_rpc_connection`
(`raft_rpc_listener.cpp`).  What the client has written and the server has
not read yet is in the outgoing bytes of the client's socket, what the server
has written and the client has not read is in its incoming ones.  A read that
finds too few bytes blocks, so its step is possible only when all are there;
it can fail after any smaller number of them, when the time limit of the
socket passes or the server has closed the connection.
-/

/-- `RpcClientHandle`, the codec of the server, and what was sent and served. -/
structure TcpConn where
  nextSeq : Nat := 1
  codec : WireClientCodec := {}
  serverCodec : WireServerCodec := {}
  sent : List RpcRequest := []
  served : List (RpcRequest × RpcAnswer) := []

/-- Where an invocation is in `rpc_invoke`. -/
inductive TcpCall where
  | writing (seq : Nat) (request : RpcRequest)
  | header
  | body
  deriving Repr, DecidableEq

/-- What an invocation does next. -/
inductive TcpAction where
  | write
  /-- The write fails after these bytes. -/
  | writeFails (landed : Nat)
  | readHeader
  | readBody
  /-- The read fails after these bytes. -/
  | readFails (consumed : Nat)
  deriving Repr, DecidableEq

namespace TcpConn

/-- The lock section begins with the next number. -/
def invoke
    (conn : TcpConn)
    (request : RpcRequest) :
    TcpConn × TcpCall :=
  ({ conn with nextSeq := (conn.nextSeq + 1) % 2 ^ 64 },
    .writing conn.nextSeq request)

/-- The client finds only these bytes. -/
def offering
    (conn : TcpConn)
    (bytes : List UInt8) :
    TcpConn :=
  { conn with
    codec := { conn.codec with
      socket := conn.codec.socket.arriving bytes } }

/-- Some bytes are on their way to the server. -/
def push
    (conn : TcpConn)
    (bytes : List UInt8) :
    TcpConn :=
  { conn with
    codec := { conn.codec with
      socket := { conn.codec.socket with
        outgoing := conn.codec.socket.outgoing ++ bytes } } }

/-- A request whose write failed; without a byte of it nothing was sent. -/
def writeFails
    (conn : TcpConn)
    (seq : Nat)
    (request : RpcRequest)
    (landed : Nat) :
    Option (TcpConn × Progress TcpCall) :=
  let buffer :=
    WireClientCodec.requestBuffer request.method seq request.body
  if landed = 0 then
    some (conn, .threw true)
  else if landed < buffer.length then
    some ({ conn.push (buffer.take landed) with
      sent := conn.sent ++ [request] }, .threw false)
  else
    none

/-- A read of the header that fails does so before the header is complete. -/
def headerFails
    (conn : TcpConn)
    (consumed : Nat) :
    Option (TcpConn × Progress TcpCall) :=
  let incoming := conn.codec.socket.incoming
  match (conn.offering (incoming.take consumed)).codec.readResponseHeader with
  | .ok _ => none
  | .error _ => some (conn.offering (incoming.drop consumed), .threw false)

/-- A read of the body that fails does so before the body is complete. -/
def bodyFails
    (conn : TcpConn)
    (consumed : Nat) :
    Option (TcpConn × Progress TcpCall) :=
  let incoming := conn.codec.socket.incoming
  match (conn.offering (incoming.take consumed)).codec.readResponseBody with
  | .ok _ => none
  | .error _ => some (conn.offering (incoming.drop consumed), .threw false)

/-- `rpc_invoke` after the lock, one call of the codec at a time. -/
def advance
    (conn : TcpConn)
    (call : TcpCall)
    (action : TcpAction) :
    Option (TcpConn × Progress TcpCall) :=
  match call, action with
  | .writing seq request, .write =>
      match conn.codec.writeRequest request.method seq request.body with
      | .error _ => some (conn, .threw true)
      | .ok codec =>
          some ({ conn with codec, sent := conn.sent ++ [request] },
            .running .header)
  | .writing seq request, .writeFails landed =>
      conn.writeFails seq request landed
  | .header, .readHeader =>
      match conn.codec.readResponseHeader with
      | .error _ => none
      | .ok (hdr, codec) =>
          -- The number in the header is not compared with the one sent.
          if hdr.error = [] then
            some ({ conn with codec }, .running .body)
          else
            some ({ conn with codec }, .threw (codec.pendingBodyLen = 0))
  | .header, .readFails consumed => conn.headerFails consumed
  | .body, .readBody =>
      match conn.codec.readResponseBody with
      | .error _ => none
      | .ok (body, codec) => some ({ conn with codec }, .returned body)
  | .body, .readFails consumed => conn.bodyFails consumed
  | _, _ => none

/--
One turn of the loop in `serve_rpc_connection`.  When the loop ends, nothing
more happens on the connection.
-/
def serve
    (conn : TcpConn)
    (answer : { answer : RpcAnswer // answer.body.length < 2 ^ 32 }) :
    Option TcpConn :=
  let arrived : WireServerCodec :=
    { conn.serverCodec with
      socket := { incoming := conn.codec.socket.outgoing } }
  match arrived.readRequest with
  | .error _ => none
  | .ok (request, codec) =>
      match
        codec.writeResponse request.seq answer.val.error answer.val.body with
      | .error _ => none
      | .ok codec =>
          some { conn with
            codec := { conn.codec with
              socket := { conn.codec.socket with
                incoming :=
                  conn.codec.socket.incoming ++ codec.socket.outgoing
                outgoing := codec.socket.incoming } }
            serverCodec := codec
            served := conn.served ++
              [({ method := request.serviceMethod, body := request.body },
                answer.val)] }

end TcpConn

/-- A dialled TCP connection. -/
def tcpConn : RpcConn where
  State := TcpConn
  Call := TcpCall
  Action := TcpAction
  Event := { answer : RpcAnswer // answer.body.length < 2 ^ 32 }
  dialed := {}
  invoke := TcpConn.invoke
  advance := TcpConn.advance
  happen := TcpConn.serve
  sent := TcpConn.sent
  served := TcpConn.served

namespace TcpConn

/-- The two streams, the sockets that do not fail, and the next number. -/
structure Carries
    (conn : TcpConn)
    (up down : List UInt8) : Prop where
  down : conn.codec.socket.Holds down
  up : conn.codec.socket.outgoing = up
  seq : conn.nextSeq < 2 ^ 64

/-- Between two invocations nothing is on the way. -/
structure Aligned (conn : TcpConn) : Prop where
  carries : conn.Carries [] []
  count : conn.sent.length = conn.served.length

/-- An invocation waits for its answer. -/
structure Awaits
    (conn : TcpConn)
    (number : Nat)
    (request : RpcRequest) : Prop where
  sent : conn.sent.length = number + 1
  /-- The request is on the way to the server, or its answer back. -/
  stage :
    (∃ seq,
      seq < 2 ^ 64 ∧
        request.Fits ∧
          conn.served.length = number ∧
            conn.Carries
              (WireClientCodec.requestBuffer request.method seq request.body)
              []) ∨
    (∃ response : WireResponse,
      response.Fits ∧
        conn.served.length = number + 1 ∧
          conn.served[number]? =
              some (request,
                { error := response.error, body := response.body }) ∧
            conn.Carries [] response.bytes)

/-- An invocation has read the header of its answer. -/
structure AwaitsBody
    (conn : TcpConn)
    (number : Nat)
    (request : RpcRequest)
    (body : List UInt8) : Prop where
  sent : conn.sent.length = number + 1
  count : conn.served.length = number + 1
  served : conn.served[number]? = some (request, { body })
  announced : conn.codec.pendingBodyLen = body.length
  carries : conn.Carries [] body

/-- What holds at each point of an invocation on an aligned connection. -/
def InCall
    (conn : TcpConn)
    (number : Nat)
    (request : RpcRequest) :
    TcpCall → Prop
  | .writing seq written =>
      conn.Aligned ∧
        conn.sent.length = number ∧
          seq < 2 ^ 64 ∧
            written = request ∧ request.Fits
  | .header => conn.Awaits number request
  | .body => ∃ body, conn.AwaitsBody number request body

section

variable {conn after : TcpConn} {number : Nat} {request : RpcRequest}

theorem Aligned.invoke
    (aligned : conn.Aligned)
    (fits : request.Fits) :
    (conn.invoke request).1.InCall conn.sent.length request
      (conn.invoke request).2 := by
  refine ⟨⟨⟨aligned.carries.down, aligned.carries.up, ?_⟩,
    aligned.count⟩, rfl, aligned.carries.seq, rfl, fits⟩
  exact Nat.mod_lt _ (Nat.two_pow_pos 64)

/-- The whole request goes out. -/
theorem Aligned.write
    {seq : Nat}
    (aligned : conn.Aligned)
    (count : conn.sent.length = number)
    (bound : seq < 2 ^ 64)
    (fits : request.Fits) :
    ∃ codec,
      conn.codec.writeRequest request.method seq request.body = .ok codec ∧
        ({ conn with codec, sent := conn.sent ++ [request] }).Awaits number
          request := by
  let wire : WireRequest :=
    { serviceMethod := request.method, seq, body := request.body }
  have wireFits : wire.Fits :=
    { named := fits.named
      method := fits.method
      seq := bound
      body := fits.body }
  obtain ⟨codec, wrote, succeed, outgoing, incoming⟩ :=
    writeRequest_leaves wireFits aligned.carries.down.succeed
  rw [aligned.carries.up, List.nil_append] at outgoing
  refine ⟨codec, wrote, ?_, Or.inl ⟨seq, bound, fits, ?_, ?_⟩⟩
  · rw [List.length_append, List.length_singleton, count]
  · exact aligned.count.symm.trans count
  · exact ⟨⟨incoming.trans aligned.carries.down.incoming, succeed⟩,
      outgoing, aligned.carries.seq⟩

/-- Nothing can be read from an empty stream. -/
theorem wireReadFull_empty
    {socket : Socket}
    (missing : Nat)
    (empty : socket.incoming = []) :
    ∃ failure, wireReadFull socket (missing + 1) = .error failure := by
  unfold wireReadFull
  cases socket.nextCall (missing + 1) with
  | none => exact ⟨_, rfl⟩
  | some more =>
      rw [empty]
      exact ⟨_, rfl⟩

theorem readResponseHeader_empty
    {codec : WireClientCodec}
    (empty : codec.socket.incoming = []) :
    ∃ failure, codec.readResponseHeader = .error failure := by
  obtain ⟨failure, failed⟩ := wireReadFull_empty 9 empty
  refine ⟨failure, ?_⟩
  simp only [WireClientCodec.readResponseHeader, failed, bind, Except.bind]

/-- Without a request the server waits. -/
theorem serve_empty
    {answer : { answer : RpcAnswer // answer.body.length < 2 ^ 32 }}
    (empty : conn.codec.socket.outgoing = []) :
    conn.serve answer = none := by
  let arrived : WireServerCodec :=
    { conn.serverCodec with
      socket := { incoming := conn.codec.socket.outgoing } }
  have nothing : arrived.socket.incoming = [] := empty
  obtain ⟨failure, failed⟩ := wireReadFull_empty 1 nothing
  have unread : arrived.readRequest = .error failure := by
    simp only [WireServerCodec.readRequest,
      WireServerCodec.readRequestHeader, failed, bind, Except.bind]
  unfold serve
  simp only [arrived] at unread
  simp only [unread]

/-- The server reads the request and its answer is on the way. -/
theorem Awaits.serve
    {answer : { answer : RpcAnswer // answer.body.length < 2 ^ 32 }}
    (awaits : conn.Awaits number request)
    (served : conn.serve answer = some after) :
    after.Awaits number request := by
  rcases awaits.stage with
    ⟨seq, bound, fits, count, carries⟩ | ⟨response, _, _, _, carries⟩
  · let wire : WireRequest :=
      { serviceMethod := request.method, seq, body := request.body }
    have wireFits : wire.Fits :=
      { named := fits.named
        method := fits.method
        seq := bound
        body := fits.body }
    let arrived : WireServerCodec :=
      { conn.serverCodec with
        socket := { incoming := conn.codec.socket.outgoing } }
    have holds : arrived.socket.Holds (wire.bytes ++ []) :=
      ⟨carries.up.trans (List.append_nil _).symm, List.not_mem_nil⟩
    obtain ⟨reader, read, left, outgoing⟩ := readRequest_leaves wireFits holds
    simp only [arrived] at read
    simp only [TcpConn.serve, read] at served
    by_cases short : answer.val.error.length ≤ 65535
    · let response : WireResponse :=
        { seq, error := answer.val.error, body := answer.val.body }
      have responseFits : response.Fits :=
        { seq := bound, error := short, body := answer.property }
      obtain ⟨writer, wrote, -, written, kept⟩ :=
        writeResponse_leaves responseFits left.succeed
      simp only [wire, response] at wrote served
      simp only [wrote, Option.some.injEq] at served
      subst served
      refine ⟨awaits.sent, Or.inr ⟨response, responseFits, ?_, ?_, ?_⟩⟩
      · rw [List.length_append, List.length_singleton, count]
      · rw [← count, List.getElem?_concat_length]
      · refine ⟨⟨?_, carries.down.succeed⟩, ?_, carries.seq⟩
        · show conn.codec.socket.incoming ++ writer.socket.outgoing = _
          rw [carries.down.incoming, List.nil_append, written, outgoing]
          rfl
        · exact kept.trans left.incoming
    · have long : 0xFFFF < answer.val.error.length := Nat.not_le.mp short
      simp only [WireServerCodec.writeResponse, long, if_true, bind,
        Except.bind, throw, throwThe, MonadExceptOf.throw] at served
      cases served
  · rw [serve_empty carries.up] at served
    cases served

/-- The header is read as it was sent. -/
theorem Awaits.header
    (awaits : conn.Awaits number request)
    {hdr : ResponseHeader}
    {codec : WireClientCodec}
    (read : conn.codec.readResponseHeader = .ok (hdr, codec)) :
    ∃ response : WireResponse,
      conn.served[number]? =
          some (request, { error := response.error, body := response.body }) ∧
        conn.served.length = number + 1 ∧
          hdr.error = response.error ∧
            codec.pendingBodyLen = response.body.length ∧
              ({ conn with codec }).Carries [] response.body := by
  rcases awaits.stage with
    ⟨seq, bound, fits, count, carries⟩ | ⟨response, fits, count, served, carries⟩
  · obtain ⟨failure, failed⟩ := readResponseHeader_empty carries.down.incoming
    rw [failed] at read
    cases read
  · have holds : conn.codec.socket.Holds (response.bytes ++ []) :=
      ⟨carries.down.incoming.trans (List.append_nil _).symm,
        carries.down.succeed⟩
    obtain ⟨hdr', codec', read', -, error, announced, left, outgoing⟩ :=
      readResponseHeader_spec fits holds
    rw [read'] at read
    cases read
    rw [List.append_nil] at left
    exact ⟨response, served, count, error, announced,
      ⟨left, outgoing.trans carries.up, carries.seq⟩⟩

/-- The body is the answer, and nothing is left behind it. -/
theorem AwaitsBody.read
    {body got : List UInt8}
    {codec : WireClientCodec}
    (awaits : conn.AwaitsBody number request body)
    (read : conn.codec.readResponseBody = .ok (got, codec)) :
    got = body ∧ ({ conn with codec }).Aligned := by
  have holds : conn.codec.socket.Holds (body ++ []) :=
    ⟨awaits.carries.down.incoming.trans (List.append_nil _).symm,
      awaits.carries.down.succeed⟩
  obtain ⟨codec', read', left, outgoing⟩ :=
    readResponseBody_spec awaits.announced holds
  rw [read'] at read
  cases read
  exact ⟨rfl, ⟨left, outgoing.trans awaits.carries.up, awaits.carries.seq⟩,
    awaits.sent.trans awaits.count.symm⟩

/-- Each call of `rpc_invoke` leads on to the answer. -/
theorem InCall.advance
    {call : TcpCall}
    {action : TcpAction}
    {progress : Progress TcpCall}
    (inCall : conn.InCall number request call)
    (moved : conn.advance call action = some (after, progress)) :
    progress.Leads after.Aligned (after.InCall number request)
      (fun body => after.served[number]? = some (request, { body })) := by
  cases call with
  | writing seq written =>
      obtain ⟨aligned, count, bound, rfl, fits⟩ := inCall
      cases action with
      | write =>
          obtain ⟨codec, wrote, awaits⟩ := aligned.write count bound fits
          simp only [TcpConn.advance, wrote, Option.some.injEq,
            Prod.mk.injEq] at moved
          obtain ⟨rfl, rfl⟩ := moved
          exact awaits
      | writeFails landed =>
          simp only [TcpConn.advance, TcpConn.writeFails] at moved
          split at moved
          · cases moved
            exact fun _ => aligned
          · split at moved
            · cases moved
              exact fun settled => absurd settled Bool.false_ne_true
            · cases moved
      | readHeader => cases moved
      | readBody => cases moved
      | readFails consumed => cases moved
  | header =>
      cases action with
      | readHeader =>
          simp only [TcpConn.advance] at moved
          split at moved
          · cases moved
          · rename_i hdr codec read
            obtain ⟨response, served, count, error, announced, carries⟩ :=
              Awaits.header inCall read
            split at moved
            · rename_i noError
              cases moved
              rw [error] at noError
              rw [noError] at served
              exact ⟨response.body, inCall.sent, count, served, announced,
                carries⟩
            · cases moved
              intro complete
              have empty : response.body = [] := by
                apply List.length_eq_zero_iff.mp
                rw [← announced]
                exact of_decide_eq_true complete
              rw [empty] at carries
              exact ⟨carries, inCall.sent.trans count.symm⟩
      | readFails consumed =>
          simp only [TcpConn.advance, TcpConn.headerFails] at moved
          split at moved
          · cases moved
          · cases moved
            exact fun settled => absurd settled Bool.false_ne_true
      | write => cases moved
      | writeFails landed => cases moved
      | readBody => cases moved
  | body =>
      obtain ⟨body, awaits⟩ := inCall
      cases action with
      | readBody =>
          simp only [TcpConn.advance] at moved
          split at moved
          · cases moved
          · rename_i got codec read
            cases moved
            obtain ⟨rfl, aligned⟩ := awaits.read read
            exact ⟨aligned, awaits.served⟩
      | readFails consumed =>
          simp only [TcpConn.advance, TcpConn.bodyFails] at moved
          split at moved
          · cases moved
          · cases moved
            exact fun settled => absurd settled Bool.false_ne_true
      | write => cases moved
      | writeFails landed => cases moved
      | readHeader => cases moved

/-- While a request is written or a body read, the server has nothing to do. -/
theorem InCall.serve
    {call : TcpCall}
    {answer : { answer : RpcAnswer // answer.body.length < 2 ^ 32 }}
    (inCall : conn.InCall number request call)
    (served : conn.serve answer = some after) :
    after.InCall number request call := by
  cases call with
  | writing seq written =>
      rw [serve_empty inCall.1.carries.up] at served
      cases served
  | header =>
      exact Awaits.serve inCall served
  | body =>
      obtain ⟨body, awaits⟩ := inCall
      rw [serve_empty awaits.carries.up] at served
      cases served

/-- An invocation leaves the history of the server alone. -/
theorem advance_served
    {call : TcpCall}
    {action : TcpAction}
    {progress : Progress TcpCall}
    (moved : conn.advance call action = some (after, progress)) :
    after.served = conn.served := by
  unfold TcpConn.advance at moved
  split at moved
  · split at moved
    · cases moved
      rfl
    · cases moved
      rfl
  · unfold TcpConn.writeFails at moved
    dsimp only at moved
    split at moved
    · cases moved
      rfl
    · split at moved
      · cases moved
        rfl
      · cases moved
  · split at moved
    · cases moved
    · split at moved
      · cases moved
        rfl
      · cases moved
        rfl
  · unfold TcpConn.headerFails at moved
    dsimp only at moved
    split at moved
    · cases moved
    · cases moved
      rfl
  · split at moved
    · cases moved
    · cases moved
      rfl
  · unfold TcpConn.bodyFails at moved
    dsimp only at moved
    split at moved
    · cases moved
    · cases moved
      rfl
  · cases moved

theorem serve_served
    {answer : { answer : RpcAnswer // answer.body.length < 2 ^ 32 }}
    (served : conn.serve answer = some after) :
    conn.served <+: after.served := by
  unfold TcpConn.serve at served
  dsimp only at served
  split at served
  · cases served
  · split at served
    · cases served
    · cases served
      exact List.prefix_append _ _

end

end TcpConn

/-- The TCP connection pairs answers as long as none is left behind. -/
def tcpLawful : tcpConn.Lawful where
  Aligned := TcpConn.Aligned
  InCall := TcpConn.InCall
  dialed := ⟨⟨⟨rfl, List.not_mem_nil⟩, rfl, by decide⟩, rfl⟩
  invoke := TcpConn.Aligned.invoke
  advance := TcpConn.InCall.advance
  idle := by
    intro conn after answer aligned served
    rw [show tcpConn.happen conn answer = none from
      TcpConn.serve_empty aligned.carries.up] at served
    cases served
  busy := TcpConn.InCall.serve
  servedInvoke := fun _ _ => rfl
  servedAdvance := TcpConn.advance_served
  servedHappen := TcpConn.serve_served

end NvmeofRaft
