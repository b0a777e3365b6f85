import Mathlib.Data.Nat.Bitwise
import NvmeofRaft.RpcClients
import NvmeofRaft.WordBytes

namespace NvmeofRaft

/-!
# The RDMA connection

`rdma_invoke` against `serve_rdma_connection` (`raft_rdma_transport.cpp`).  A
SEND moves one frame, and the frames of a queue pair arrive in the order in
which they were posted, each into a receive that was posted before.  The
completions of the client's own sends and receives come in one queue.
-/

/-- `kRdmaMaxMessageBytes`. -/
def rdmaMaxMessageBytes : Nat :=
  2 ^ 20

/-- `kHdrBytes`. -/
def rdmaHdrBytes : Nat :=
  8

/-- `put_be32`. -/
def putBe32 (value : Nat) : List UInt8 :=
  [UInt8.ofNat (value >>> 24 &&& 0xFF),
    UInt8.ofNat (value >>> 16 &&& 0xFF),
    UInt8.ofNat (value >>> 8 &&& 0xFF),
    UInt8.ofNat (value &&& 0xFF)]

/-- `get_be32`. -/
def getBe32 (bytes : List UInt8) : Nat :=
  (bytes.getD 0 0).toNat <<< 24 ||| (bytes.getD 1 0).toNat <<< 16 |||
    (bytes.getD 2 0).toNat <<< 8 ||| (bytes.getD 3 0).toNat

/-- `encode_frame`; `none` for a frame that is too large. -/
def encodeFrame
    (head body : List UInt8) :
    Option (List UInt8) :=
  let total := rdmaHdrBytes + head.length + body.length
  if rdmaMaxMessageBytes < total then
    none
  else
    some (putBe32 head.length ++ putBe32 body.length ++ head ++ body)

/-- `decode_frame` on the receive buffer; `none` when it throws. -/
def decodeFrame
    (recvBuf : List UInt8)
    (received : Nat) :
    Option (List UInt8 × List UInt8) :=
  if received < rdmaHdrBytes then
    none
  else
    let headLen := getBe32 recvBuf
    let bodyLen := getBe32 (recvBuf.drop 4)
    if received < headLen + bodyLen + rdmaHdrBytes then
      none
    else
      some ((recvBuf.drop rdmaHdrBytes).take headLen,
        (recvBuf.drop (rdmaHdrBytes + headLen)).take bodyLen)

/-- A completion of the client's queue. -/
inductive Completion where
  | send
  | recv (byteLen : Nat)
  deriving Repr, DecidableEq

/--
The queue pair of a client with the server at its other end, and what was sent
and served.
-/
structure RdmaConn where
  toServer : List (List UInt8) := []
  toClient : List (List UInt8) := []
  /-- The posted sends that have not completed. -/
  sendsPosted : Nat := 0
  recvPosted : Bool := true
  recvBuf : List UInt8 := []
  cq : List Completion := []
  sent : List RpcRequest := []
  served : List (RpcRequest × RpcAnswer) := []
  deriving Repr, DecidableEq

/-- Where an invocation is in `rdma_invoke`. -/
inductive RdmaCall where
  | posting (request : RpcRequest)
  | waiting (gotSend gotRecv : Bool) (received : Nat)
  deriving Repr, DecidableEq

/-- What an invocation does next; the argument says whether a post succeeds. -/
inductive RdmaAction where
  | post (posted : Bool)
  | complete
  /-- `wait_completion` runs out of time, or finds a failed completion. -/
  | timeout
  | finish (posted : Bool)
  deriving Repr, DecidableEq

/-- What the network and the server do. -/
inductive RdmaEvent where
  | sendCompletes
  | serve (answer : RpcAnswer)
  | deliver
  deriving Repr, DecidableEq

namespace RdmaConn

/-- `encode_frame` and `post_send`. -/
def post
    (conn : RdmaConn)
    (request : RpcRequest)
    (posted : Bool) :
    RdmaConn × Progress RdmaCall :=
  match encodeFrame request.method request.body, posted with
  | some frame, true =>
      ({ conn with
        toServer := conn.toServer ++ [frame]
        sendsPosted := conn.sendsPosted + 1
        sent := conn.sent ++ [request] }, .running (.waiting false false 0))
  | _, _ => (conn, .threw true)

/-- `decode_frame`, `post_recv` and the check for an error. -/
def finish
    (conn : RdmaConn)
    (received : Nat)
    (posted : Bool) :
    RdmaConn × Progress RdmaCall :=
  match decodeFrame conn.recvBuf received, posted with
  | some (error, body), true =>
      ({ conn with recvPosted := true },
        if error = [] then .returned body else .threw true)
  | _, _ => (conn, .threw false)

/-- One turn of the loop over the completions. -/
def complete
    (conn : RdmaConn)
    (gotSend gotRecv : Bool)
    (received : Nat) :
    Option (RdmaConn × Progress RdmaCall) :=
  match conn.cq with
  | [] => none
  | .recv byteLen :: rest =>
      some ({ conn with cq := rest },
        .running (.waiting gotSend true byteLen))
  | .send :: rest =>
      some ({ conn with cq := rest },
        .running (.waiting true gotRecv received))

/-- `rdma_invoke` after the lock. -/
def advance
    (conn : RdmaConn)
    (call : RdmaCall)
    (action : RdmaAction) :
    Option (RdmaConn × Progress RdmaCall) :=
  match call, action with
  | .posting request, .post posted => some (conn.post request posted)
  | .waiting true true received, .finish posted =>
      some (conn.finish received posted)
  | .waiting true true _, _ => none
  | .waiting gotSend gotRecv received, .complete =>
      conn.complete gotSend gotRecv received
  | .waiting _ _ _, .timeout => some (conn, .threw false)
  | _, _ => none

/--
One turn of the loop in `serve_rdma_connection`.  When it throws, nothing more
is served on the connection.
-/
def serve
    (conn : RdmaConn)
    (answer : RpcAnswer) :
    Option RdmaConn :=
  match conn.toServer with
  | [] => none
  | frame :: rest =>
      (decodeFrame frame frame.length).bind fun (method, body) =>
        (encodeFrame answer.error
            (if answer.error = [] then answer.body else [])).map
          fun response => { conn with
            toServer := rest
            toClient := conn.toClient ++ [response]
            served := conn.served ++ [({ method, body }, answer)] }

/-- A frame arrives in the posted receive. -/
def deliver (conn : RdmaConn) : Option RdmaConn :=
  match conn.recvPosted, conn.toClient with
  | true, frame :: rest =>
      some { conn with
        toClient := rest
        recvPosted := false
        recvBuf := frame
        cq := conn.cq ++ [.recv frame.length] }
  | _, _ => none

/-- A posted send completes. -/
def sendCompletes (conn : RdmaConn) : Option RdmaConn :=
  match conn.sendsPosted with
  | 0 => none
  | others + 1 =>
      some { conn with
        sendsPosted := others
        cq := conn.cq ++ [.send] }

/-- What happens outside of the client. -/
def happen (conn : RdmaConn) : RdmaEvent → Option RdmaConn
  | .sendCompletes => conn.sendCompletes
  | .serve answer => conn.serve answer
  | .deliver => conn.deliver

end RdmaConn

/-- A dialled RDMA connection. -/
def rdmaConn : RpcConn where
  State := RdmaConn
  Call := RdmaCall
  Action := RdmaAction
  Event := RdmaEvent
  dialed := {}
  invoke := fun conn request => (conn, .posting request)
  advance := RdmaConn.advance
  happen := RdmaConn.happen
  sent := RdmaConn.sent
  served := RdmaConn.served

/-- A byte in front of others, by shift and by place value. -/
theorem shiftLeft_or
    (byte : Nat)
    {width rest : Nat}
    (below : rest < 2 ^ width) :
    byte <<< width ||| rest = byte * 2 ^ width + rest := by
  rw [← Nat.shiftLeft_add_eq_or_of_lt below, Nat.shiftLeft_eq]

/-- A length survives the way through a frame. -/
theorem getBe32_putBe32
    {value : Nat}
    (fits : value < 2 ^ 32)
    (rest : List UInt8) :
    getBe32 (putBe32 value ++ rest) = value := by
  have mask : ∀ high : Nat, high &&& 0xFF = high % 256 := fun high =>
    Nat.and_two_pow_sub_one_eq_mod high 8
  simp only [putBe32, getBe32, List.cons_append, List.getD_cons_zero,
    List.getD_cons_succ, mask, UInt8.toNat_ofNat', Nat.mod_mod,
    Nat.shiftRight_eq_div_pow, Nat.or_assoc]
  rw [shiftLeft_or _ (by omega : value % 256 < 2 ^ 8),
    shiftLeft_or _
      (by omega : value / 2 ^ 8 % 256 * 2 ^ 8 + value % 256 < 2 ^ 16),
    shiftLeft_or _
      (by omega :
        value / 2 ^ 16 % 256 * 2 ^ 16 +
          (value / 2 ^ 8 % 256 * 2 ^ 8 + value % 256) < 2 ^ 24)]
  omega

/-- A frame is taken apart as it was put together. -/
theorem decodeFrame_of_encodeFrame
    {head body frame : List UInt8}
    (encoded : encodeFrame head body = some frame) :
    decodeFrame frame frame.length = some (head, body) := by
  unfold encodeFrame at encoded
  dsimp only at encoded
  split at encoded
  · cases encoded
  · rename_i fits
    simp only [rdmaMaxMessageBytes, rdmaHdrBytes, not_lt] at fits
    have headLen : head.length < 2 ^ 32 := by omega
    have bodyLen : body.length < 2 ^ 32 := by omega
    cases encoded
    have total :
        (putBe32 head.length ++ putBe32 body.length ++ head ++ body).length =
          8 + head.length + body.length := by
      simp [putBe32]
      omega
    have first :
        getBe32 (putBe32 head.length ++ putBe32 body.length ++ head ++ body) =
          head.length := by
      rw [List.append_assoc, List.append_assoc, getBe32_putBe32 headLen]
    have second :
        getBe32
            ((putBe32 head.length ++ putBe32 body.length ++ head ++ body).drop
              4) = body.length := by
      rw [List.append_assoc, List.append_assoc,
        List.drop_left' (by rfl : (putBe32 head.length).length = 4),
        getBe32_putBe32 bodyLen]
    have front :
        (putBe32 head.length ++ putBe32 body.length).length = 8 := rfl
    unfold decodeFrame
    rw [total, first, second]
    rw [if_neg (by simp only [rdmaHdrBytes]; omega)]
    dsimp only
    rw [if_neg (by simp only [rdmaHdrBytes]; omega)]
    simp only [rdmaHdrBytes]
    rw [← List.drop_drop, List.append_assoc (_ ++ _), List.drop_left' front,
      List.take_left, List.drop_left, List.take_length]

/-- The length that a receive completes with. -/
def Completion.byteLen? : Completion → Option Nat
  | .send => none
  | .recv byteLen => some byteLen

/-- A queue without sends and receives is empty. -/
theorem completions_empty
    {cq : List Completion}
    (noSend : cq.count .send = 0)
    (noRecv : cq.filterMap Completion.byteLen? = []) :
    cq = [] := by
  cases cq with
  | nil => rfl
  | cons first rest =>
      cases first with
      | send => simp at noSend
      | recv byteLen => simp [Completion.byteLen?] at noRecv

namespace RdmaConn

/-- Between two invocations nothing is on the way, and a receive is posted. -/
structure Aligned (conn : RdmaConn) : Prop where
  toServer : conn.toServer = []
  toClient : conn.toClient = []
  sendsPosted : conn.sendsPosted = 0
  recvPosted : conn.recvPosted = true
  cq : conn.cq = []
  count : conn.sent.length = conn.served.length

/-- The frame in which the server answers. -/
def answerFrame? (answer : RpcAnswer) : Option (List UInt8) :=
  encodeFrame answer.error (if answer.error = [] then answer.body else [])

/-- The request with this number has this answer. -/
structure Answered
    (conn : RdmaConn)
    (number : Nat)
    (request : RpcRequest)
    (frame : List UInt8) : Prop where
  toServer : conn.toServer = []
  count : conn.served.length = number + 1
  served :
    ∃ answer,
      conn.served[number]? = some (request, answer) ∧
        answerFrame? answer = some frame

/-- Where the request or its answer is. -/
inductive Stage
    (conn : RdmaConn)
    (number : Nat)
    (request : RpcRequest) :
    Bool → Nat → Prop
  | outbound
      {frame : List UInt8}
      {received : Nat}
      (encoded : encodeFrame request.method request.body = some frame)
      (toServer : conn.toServer = [frame])
      (toClient : conn.toClient = [])
      (count : conn.served.length = number)
      (recvPosted : conn.recvPosted = true)
      (noRecv : conn.cq.filterMap Completion.byteLen? = []) :
      Stage conn number request false received
  | inbound
      {frame : List UInt8}
      {received : Nat}
      (answered : conn.Answered number request frame)
      (toClient : conn.toClient = [frame])
      (recvPosted : conn.recvPosted = true)
      (noRecv : conn.cq.filterMap Completion.byteLen? = []) :
      Stage conn number request false received
  | arrived
      {frame : List UInt8}
      {received : Nat}
      (answered : conn.Answered number request frame)
      (toClient : conn.toClient = [])
      (recvPosted : conn.recvPosted = false)
      (recvBuf : conn.recvBuf = frame)
      (oneRecv : conn.cq.filterMap Completion.byteLen? = [frame.length]) :
      Stage conn number request false received
  | taken
      {frame : List UInt8}
      (answered : conn.Answered number request frame)
      (toClient : conn.toClient = [])
      (recvBuf : conn.recvBuf = frame)
      (noRecv : conn.cq.filterMap Completion.byteLen? = []) :
      Stage conn number request true frame.length

/-- An invocation waits for its two completions. -/
structure Awaits
    (conn : RdmaConn)
    (number : Nat)
    (request : RpcRequest)
    (gotSend gotRecv : Bool)
    (received : Nat) : Prop where
  sent : conn.sent.length = number + 1
  sends : conn.cq.count .send + conn.sendsPosted + gotSend.toNat = 1
  stage : conn.Stage number request gotRecv received

/-- What holds at each point of an invocation on an aligned connection. -/
def InCall
    (conn : RdmaConn)
    (number : Nat)
    (request : RpcRequest) :
    RdmaCall → Prop
  | .posting posted =>
      conn.Aligned ∧ conn.sent.length = number ∧ posted = request
  | .waiting gotSend gotRecv received =>
      conn.Awaits number request gotSend gotRecv received

section

variable {conn after : RdmaConn} {number received : Nat}
variable {request : RpcRequest} {gotSend gotRecv : Bool}
variable {progress : Progress RdmaCall}

theorem Aligned.post
    {posted : Bool}
    (aligned : conn.Aligned)
    (count : conn.sent.length = number)
    (moved : conn.post request posted = (after, progress)) :
    progress.Leads after.Aligned (after.InCall number request)
      (fun body => after.served[number]? = some (request, { body })) := by
  unfold RdmaConn.post at moved
  split at moved
  · rename_i frame encoded
    cases moved
    refine ⟨?_, ?_, .outbound encoded ?_ aligned.toClient ?_
      aligned.recvPosted ?_⟩
    · rw [List.length_append, List.length_singleton, count]
    · show conn.cq.count .send + (conn.sendsPosted + 1) + 0 = 1
      rw [aligned.cq, aligned.sendsPosted]
      rfl
    · show conn.toServer ++ [frame] = [frame]
      rw [aligned.toServer, List.nil_append]
    · exact aligned.count.symm.trans count
    · show conn.cq.filterMap _ = []
      rw [aligned.cq]
      rfl
  · cases moved
    exact fun _ => aligned

/-- The sends of a connection do not matter to its answers. -/
theorem Stage.withSends
    (stage : conn.Stage number request gotRecv received)
    {cq : List Completion}
    (same :
      cq.filterMap Completion.byteLen? =
        conn.cq.filterMap Completion.byteLen?)
    (sendsPosted : Nat) :
    ({ conn with cq, sendsPosted }).Stage number request gotRecv
      received := by
  cases stage with
  | outbound encoded toServer toClient count recvPosted noRecv =>
      exact .outbound encoded toServer toClient count recvPosted
        (same.trans noRecv)
  | inbound answered toClient recvPosted noRecv =>
      exact .inbound ⟨answered.toServer, answered.count, answered.served⟩
        toClient recvPosted (same.trans noRecv)
  | arrived answered toClient recvPosted recvBuf oneRecv =>
      exact .arrived ⟨answered.toServer, answered.count, answered.served⟩
        toClient recvPosted recvBuf (same.trans oneRecv)
  | taken answered toClient recvBuf noRecv =>
      exact .taken ⟨answered.toServer, answered.count, answered.served⟩
        toClient recvBuf (same.trans noRecv)

/-- The loop sorts a completion by its kind. -/
theorem Awaits.complete
    (awaits : conn.Awaits number request gotSend gotRecv received)
    (moved :
      conn.complete gotSend gotRecv received = some (after, progress)) :
    progress.Leads after.Aligned (after.InCall number request)
      (fun body => after.served[number]? = some (request, { body })) := by
  unfold RdmaConn.complete at moved
  split at moved
  · cases moved
  · rename_i byteLen rest queue
    cases moved
    have sends := awaits.sends
    have stage := awaits.stage
    rw [queue, List.count_cons_of_ne (by rintro ⟨⟩)] at sends
    refine ⟨awaits.sent, sends, ?_⟩
    cases stage with
    | outbound _ _ _ _ _ noRecv =>
        rw [queue] at noRecv
        cases noRecv
    | inbound _ _ _ noRecv =>
        rw [queue] at noRecv
        cases noRecv
    | arrived answered toClient recvPosted recvBuf oneRecv =>
        rw [queue] at oneRecv
        obtain ⟨rfl, none⟩ := List.cons.inj oneRecv
        exact .taken ⟨answered.toServer, answered.count, answered.served⟩
          toClient recvBuf none
    | taken _ _ _ noRecv =>
        rw [queue] at noRecv
        cases noRecv
  · rename_i rest queue
    cases moved
    have sends := awaits.sends
    rw [queue, List.count_cons_self] at sends
    refine ⟨awaits.sent, ?_, ?_⟩
    · show rest.count .send + conn.sendsPosted + 1 = 1
      omega
    · refine awaits.stage.withSends ?_ conn.sendsPosted
      rw [queue]
      rfl

/-- The frame in the buffer is the answer, and nothing is left behind it. -/
theorem Awaits.finish
    {posted : Bool}
    (awaits : conn.Awaits number request true true received)
    (moved : conn.finish received posted = (after, progress)) :
    progress.Leads after.Aligned (after.InCall number request)
      (fun body => after.served[number]? = some (request, { body })) := by
  have sends : conn.cq.count .send + conn.sendsPosted + 1 = 1 := awaits.sends
  have noSend : conn.cq.count .send = 0 := by omega
  cases awaits.stage with
  | taken answered toClient recvBuf noRecv =>
      obtain ⟨answer, served, encoded⟩ := answered.served
      subst recvBuf
      have aligned : ({ conn with recvPosted := true }).Aligned :=
        { toServer := answered.toServer
          toClient := toClient
          sendsPosted := show conn.sendsPosted = 0 by omega
          recvPosted := rfl
          cq := completions_empty noSend noRecv
          count := awaits.sent.trans answered.count.symm }
      unfold RdmaConn.finish at moved
      rw [decodeFrame_of_encodeFrame encoded] at moved
      cases posted with
      | false =>
          cases moved
          exact fun settled => absurd settled Bool.false_ne_true
      | true =>
          cases moved
          by_cases noError : answer.error = []
          · rw [if_pos noError, if_pos noError]
            refine ⟨aligned, ?_⟩
            rw [← noError]
            exact served
          · rw [if_neg noError]
            exact fun _ => aligned

/-- Each step of `rdma_invoke` leads on to the answer. -/
theorem InCall.advance
    {call : RdmaCall}
    {action : RdmaAction}
    (inCall : conn.InCall number request call)
    (moved : conn.advance call action = some (after, progress)) :
    progress.Leads after.Aligned (after.InCall number request)
      (fun body => after.served[number]? = some (request, { body })) := by
  unfold RdmaConn.advance at moved
  split at moved
  · obtain ⟨aligned, count, rfl⟩ := inCall
    exact aligned.post count (Option.some.inj moved)
  · exact Awaits.finish inCall (Option.some.inj moved)
  · cases moved
  · exact Awaits.complete inCall moved
  · cases moved
    exact fun settled => absurd settled Bool.false_ne_true
  · cases moved

/-- The server takes the request and its answer is on the way. -/
theorem Awaits.serve
    {answer : RpcAnswer}
    (awaits : conn.Awaits number request gotSend gotRecv received)
    (served : conn.serve answer = some after) :
    after.Awaits number request gotSend gotRecv received := by
  unfold RdmaConn.serve at served
  split at served
  · cases served
  · rename_i frame rest queue
    obtain ⟨⟨method, body⟩, decoded, served⟩ :=
      Option.bind_eq_some_iff.mp served
    obtain ⟨response, encoded, rfl⟩ := Option.map_eq_some_iff.mp served
    refine ⟨awaits.sent, awaits.sends, ?_⟩
    cases awaits.stage with
    | outbound sent toServer toClient count recvPosted noRecv =>
        rw [queue] at toServer
        obtain ⟨rfl, rfl⟩ := List.cons.inj toServer
        rw [decodeFrame_of_encodeFrame sent] at decoded
        cases decoded
        refine .inbound ⟨rfl, ?_, answer, ?_, encoded⟩ ?_ recvPosted noRecv
        · rw [List.length_append, List.length_singleton, count]
        · rw [← count, List.getElem?_concat_length]
        · show conn.toClient ++ [response] = [response]
          rw [toClient, List.nil_append]
    | inbound answered =>
        have empty := answered.toServer
        rw [queue] at empty
        cases empty
    | arrived answered =>
        have empty := answered.toServer
        rw [queue] at empty
        cases empty
    | taken answered =>
        have empty := answered.toServer
        rw [queue] at empty
        cases empty

/-- The answer arrives in the posted receive. -/
theorem Awaits.deliver
    (awaits : conn.Awaits number request gotSend gotRecv received)
    (delivered : conn.deliver = some after) :
    after.Awaits number request gotSend gotRecv received := by
  unfold RdmaConn.deliver at delivered
  split at delivered
  · rename_i frame rest posted queue
    cases delivered
    refine ⟨awaits.sent, ?_, ?_⟩
    · show (conn.cq ++ [Completion.recv frame.length]).count
          Completion.send + _ + _ = 1
      rw [List.count_append]
      exact awaits.sends
    · cases awaits.stage with
      | outbound _ _ toClient =>
          rw [queue] at toClient
          cases toClient
      | inbound answered toClient _ noRecv =>
          rw [queue] at toClient
          obtain ⟨rfl, rfl⟩ := List.cons.inj toClient
          refine .arrived
            ⟨answered.toServer, answered.count, answered.served⟩ rfl rfl rfl
            ?_
          show (conn.cq ++ [Completion.recv frame.length]).filterMap _ = _
          rw [List.filterMap_append, noRecv]
          rfl
      | arrived _ toClient =>
          rw [queue] at toClient
          cases toClient
      | taken _ toClient =>
          rw [queue] at toClient
          cases toClient
  · cases delivered

/-- A send completes. -/
theorem Awaits.sendCompletes
    (awaits : conn.Awaits number request gotSend gotRecv received)
    (completed : conn.sendCompletes = some after) :
    after.Awaits number request gotSend gotRecv received := by
  unfold RdmaConn.sendCompletes at completed
  split at completed
  · cases completed
  · rename_i others posted
    cases completed
    have sends := awaits.sends
    refine ⟨awaits.sent, ?_, ?_⟩
    · show (conn.cq ++ [Completion.send]).count Completion.send + others +
        gotSend.toNat = 1
      rw [List.count_append, List.count_singleton_self]
      omega
    · refine awaits.stage.withSends ?_ others
      rw [List.filterMap_append]
      exact List.append_nil _

/-- On an aligned connection nothing happens. -/
theorem Aligned.happen
    {event : RdmaEvent}
    (aligned : conn.Aligned) :
    conn.happen event = none := by
  cases event with
  | sendCompletes =>
      unfold RdmaConn.happen RdmaConn.sendCompletes
      rw [aligned.sendsPosted]
  | serve answer =>
      unfold RdmaConn.happen RdmaConn.serve
      rw [aligned.toServer]
  | deliver =>
      unfold RdmaConn.happen RdmaConn.deliver
      rw [aligned.recvPosted, aligned.toClient]

theorem InCall.happen
    {call : RdmaCall}
    {event : RdmaEvent}
    (inCall : conn.InCall number request call)
    (happened : conn.happen event = some after) :
    after.InCall number request call := by
  cases call with
  | posting posted =>
      rw [inCall.1.happen] at happened
      cases happened
  | waiting gotSend gotRecv received =>
      cases event with
      | sendCompletes => exact Awaits.sendCompletes inCall happened
      | serve answer => exact Awaits.serve inCall happened
      | deliver => exact Awaits.deliver inCall happened

/-- An invocation leaves the history of the server alone. -/
theorem advance_served
    {call : RdmaCall}
    {action : RdmaAction}
    (moved : conn.advance call action = some (after, progress)) :
    after.served = conn.served := by
  unfold RdmaConn.advance at moved
  split at moved
  · unfold RdmaConn.post at moved
    split at moved
    · cases moved
      rfl
    · cases moved
      rfl
  · unfold RdmaConn.finish at moved
    split at moved
    · cases moved
      rfl
    · cases moved
      rfl
  · cases moved
  · unfold RdmaConn.complete at moved
    split at moved
    · cases moved
    · cases moved
      rfl
    · cases moved
      rfl
  · cases moved
    rfl
  · cases moved

theorem happen_served
    {event : RdmaEvent}
    (happened : conn.happen event = some after) :
    conn.served <+: after.served := by
  cases event with
  | sendCompletes =>
      simp only [RdmaConn.happen, RdmaConn.sendCompletes] at happened
      split at happened
      · cases happened
      · cases happened
        exact List.prefix_rfl
  | serve answer =>
      simp only [RdmaConn.happen, RdmaConn.serve] at happened
      split at happened
      · cases happened
      · obtain ⟨decoded, -, happened⟩ := Option.bind_eq_some_iff.mp happened
        obtain ⟨response, -, rfl⟩ := Option.map_eq_some_iff.mp happened
        exact List.prefix_append _ _
  | deliver =>
      simp only [RdmaConn.happen, RdmaConn.deliver] at happened
      split at happened
      · cases happened
        exact List.prefix_rfl
      · cases happened

end

end RdmaConn

/-- The RDMA connection pairs answers as long as none is left behind. -/
def rdmaLawful : rdmaConn.Lawful where
  Aligned := RdmaConn.Aligned
  InCall := RdmaConn.InCall
  dialed := ⟨rfl, rfl, rfl, rfl, rfl, rfl⟩
  invoke := fun aligned _ => ⟨aligned, rfl, rfl⟩
  advance := RdmaConn.InCall.advance
  idle := by
    intro conn after event aligned happened
    rw [show rdmaConn.happen conn event = none from
      RdmaConn.Aligned.happen aligned] at happened
    cases happened
  busy := RdmaConn.InCall.happen
  servedInvoke := fun _ _ => rfl
  servedAdvance := RdmaConn.advance_served
  servedHappen := RdmaConn.happen_served

end NvmeofRaft
