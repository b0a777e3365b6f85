import NvmeofRaft.RdmaTransport
import NvmeofRaft.TcpTransport

namespace NvmeofRaft

/-!
# Answers and their requests

Neither transport looks at which request a response belongs to: `rpc_invoke`
reads the number in a response header and leaves it, and the frames of
`rdma_invoke` carry none.  An answer is paired with its request by position
alone, and an invocation that times out takes no answer from its place.
-/

/-- `TransportKind`. -/
inductive TransportKind where
  | rdma
  | tcp
  deriving Repr, DecidableEq

/-- `dialer_for`: the connections that are dialled. -/
def dialerFor : TransportKind → RpcConn
  | .rdma => rdmaConn
  | .tcp => tcpConn

/-- Both kinds of connection pair answers as long as none is left behind. -/
def lawfulFor : (kind : TransportKind) → (dialerFor kind).Lawful
  | .rdma => rdmaLawful
  | .tcp => tcpLawful

/--
As long as no invocation starts on a connection that an earlier one has left
without its answer, every body that is returned answers its own request.
-/
theorem answers_paired
    {kind : TransportKind}
    {acts : List (LinkAct (dialerFor kind))}
    {link : PeerLink (dialerFor kind)}
    (run : runWhile PeerLink.settled PeerLink.step {} acts = some link) :
    ∀ result ∈ link.results, result.Paired link.channels :=
  PeerLink.run_paired (lawfulFor kind) run

/-- A call with one byte. -/
def shortRequest (byte : UInt8) : { request : RpcRequest // request.Fits } :=
  ⟨{ method := [97], body := [byte] },
    ⟨Nat.le_refl 1, (by decide : 1 ≤ 65535), (by decide : 1 < 2 ^ 32)⟩⟩

/-- An answer with one byte. -/
def shortAnswer (byte : UInt8) :
    { answer : RpcAnswer // answer.body.length < 2 ^ 32 } :=
  ⟨{ body := [byte] }, (by decide : 1 < 2 ^ 32)⟩

/--
An invocation times out, its thread drops the connection, and two later ones
share a new connection.
-/
def tcpRedial : List (LinkAct (dialerFor .tcp)) :=
  [.call 0 (shortRequest 1) false, .dialed 0 true, .lock 0,
    .advance 0 TcpAction.write, .advance 0 (TcpAction.readFails 0),
    .invalidate 0, .event 0 (shortAnswer 11),
    .call 1 (shortRequest 2) false, .dialed 1 true, .lock 1,
    .call 2 (shortRequest 3) false,
    .advance 1 TcpAction.write, .event 1 (shortAnswer 12),
    .advance 1 TcpAction.readHeader, .advance 1 TcpAction.readBody,
    .lock 2, .advance 2 TcpAction.write, .event 1 (shortAnswer 13),
    .advance 2 TcpAction.readHeader, .advance 2 TcpAction.readBody]

/-- The same over RDMA. -/
def rdmaRedial : List (LinkAct (dialerFor .rdma)) :=
  [.call 0 (shortRequest 1) false, .dialed 0 true, .lock 0,
    .advance 0 (RdmaAction.post true), .event 0 RdmaEvent.sendCompletes,
    .advance 0 RdmaAction.complete, .advance 0 RdmaAction.timeout,
    .invalidate 0, .event 0 (RdmaEvent.serve (shortAnswer 11)),
    .call 1 (shortRequest 2) false, .dialed 1 true, .lock 1,
    .call 2 (shortRequest 3) false,
    .advance 1 (RdmaAction.post true),
    .event 1 (RdmaEvent.serve (shortAnswer 12)), .event 1 RdmaEvent.deliver,
    .advance 1 RdmaAction.complete, .event 1 RdmaEvent.sendCompletes,
    .advance 1 RdmaAction.complete, .advance 1 (RdmaAction.finish true),
    .lock 2, .advance 2 (RdmaAction.post true),
    .event 1 RdmaEvent.sendCompletes, .advance 2 RdmaAction.complete,
    .event 1 (RdmaEvent.serve (shortAnswer 13)), .event 1 RdmaEvent.deliver,
    .advance 2 RdmaAction.complete, .advance 2 (RdmaAction.finish true)]

/-- After a dropped connection the bodies of the next one go to their calls. -/
theorem answers_paired_redial :
    (∃ link : PeerLink (dialerFor .tcp),
      runWhile PeerLink.settled PeerLink.step {} tcpRedial = some link ∧
        link.results.map CallResult.body = [[13], [12]] ∧
          ∀ result ∈ link.results, result.Paired link.channels) ∧
    (∃ link : PeerLink (dialerFor .rdma),
      runWhile PeerLink.settled PeerLink.step {} rdmaRedial = some link ∧
        link.results.map CallResult.body = [[13], [12]] ∧
          ∀ result ∈ link.results, result.Paired link.channels) := by
  constructor
  · obtain ⟨link, run, bodies⟩ := (Option.any_eq_true _ _).mp
      (by decide +kernel :
        (runWhile PeerLink.settled PeerLink.step {} tcpRedial).any
          (fun link => link.results.map CallResult.body = [[13], [12]]) =
            true)
    exact ⟨link, run, of_decide_eq_true bodies, answers_paired run⟩
  · obtain ⟨link, run, bodies⟩ := (Option.any_eq_true _ _).mp
      (by decide +kernel :
        (runWhile PeerLink.settled PeerLink.step {} rdmaRedial).any
          (fun link => link.results.map CallResult.body = [[13], [12]]) =
            true)
    exact ⟨link, run, of_decide_eq_true bodies, answers_paired run⟩

/-- The server gave another answer to the request of some invocation. -/
def PeerLink.mispaired
    {conn : RpcConn}
    (link : PeerLink conn) :
    Bool :=
  link.results.any fun result =>
    (link.channels[result.index]?).any fun channel =>
      ((conn.served channel.state)[result.number]?).any fun served =>
        served.1 = result.request && served.2.body ≠ result.body

theorem PeerLink.mispaired_spec
    {conn : RpcConn}
    {link : PeerLink conn}
    (wrong : link.mispaired = true) :
    ∃ result ∈ link.results, ¬ result.Paired link.channels := by
  obtain ⟨result, held, wrong⟩ := List.any_eq_true.mp wrong
  refine ⟨result, held, ?_⟩
  rintro ⟨channel, answer, found, served, -, same⟩
  rw [found, Option.any_some, served, Option.any_some] at wrong
  have differs := (Bool.and_eq_true_iff.mp wrong).2
  exact of_decide_eq_true differs same

/--
The first thread times out while its request is served; the second, which has
the connection already, sends its own and takes the answer to the first.
-/
def tcpLate : List (LinkAct (dialerFor .tcp)) :=
  [.call 0 (shortRequest 1) false, .dialed 0 true, .lock 0,
    .advance 0 TcpAction.write, .call 1 (shortRequest 2) false,
    .advance 0 (TcpAction.readFails 0), .lock 1,
    .advance 1 TcpAction.write, .event 0 (shortAnswer 11),
    .event 0 (shortAnswer 12), .advance 1 TcpAction.readHeader,
    .advance 1 TcpAction.readBody]

/-- The same over RDMA. -/
def rdmaLate : List (LinkAct (dialerFor .rdma)) :=
  [.call 0 (shortRequest 1) false, .dialed 0 true, .lock 0,
    .advance 0 (RdmaAction.post true), .call 1 (shortRequest 2) false,
    .event 0 RdmaEvent.sendCompletes, .advance 0 RdmaAction.complete,
    .advance 0 RdmaAction.timeout, .lock 1,
    .advance 1 (RdmaAction.post true),
    .event 0 (RdmaEvent.serve (shortAnswer 11)),
    .event 0 (RdmaEvent.serve (shortAnswer 12)), .event 0 RdmaEvent.deliver,
    .event 0 RdmaEvent.sendCompletes, .advance 1 RdmaAction.complete,
    .advance 1 RdmaAction.complete, .advance 1 (RdmaAction.finish true)]

/-- Over either transport a thread can get the answer to another's request. -/
theorem late_answer_taken :
    (∃ link : PeerLink (dialerFor .tcp),
      runWhile (fun _ _ => true) PeerLink.step {} tcpLate = some link ∧
        ∃ result ∈ link.results, ¬ result.Paired link.channels) ∧
    (∃ link : PeerLink (dialerFor .rdma),
      runWhile (fun _ _ => true) PeerLink.step {} rdmaLate = some link ∧
        ∃ result ∈ link.results, ¬ result.Paired link.channels) := by
  constructor
  · obtain ⟨link, run, wrong⟩ := (Option.any_eq_true _ _).mp
      (by decide +kernel :
        (runWhile (fun _ _ => true) PeerLink.step {} tcpLate).any
          PeerLink.mispaired = true)
    exact ⟨link, run, PeerLink.mispaired_spec wrong⟩
  · obtain ⟨link, run, wrong⟩ := (Option.any_eq_true _ _).mp
      (by decide +kernel :
        (runWhile (fun _ _ => true) PeerLink.step {} rdmaLate).any
          PeerLink.mispaired = true)
    exact ⟨link, run, PeerLink.mispaired_spec wrong⟩

end NvmeofRaft
