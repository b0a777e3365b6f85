import NvmeofRaft.EntryOrigin

namespace NvmeofRaft

/-!
# Client calls

`apply_internal` (`raft_apply.cpp`) from its start to its return, for any number
of clients of one node.  A call waits three times with `mu` released: for room
in the ring, for the commit signal of its last entry and for the results of its
entries.
-/

/-- How a call fails.  `persistFailed` carries the exception. -/
inductive ApplyError where
  | notLeader
  | ringBufferFull
  | persistFailed (exn : Exn)
  | serverShuttingDown
  | leadershipLost
  deriving Repr, DecidableEq

/-- `ApplyResult::error`; `what` is the text of an exception. -/
def ApplyError.text (what : Exn → String) : ApplyError → String
  | .notLeader => "not leader"
  | .ringBufferFull => "ring buffer full"
  | .persistFailed exn => "persist failed: " ++ what exn
  | .serverShuttingDown => "server shutting down"
  | .leadershipLost => "leadership lost before commit"

/-- `out_busy`. -/
def ApplyError.busy : ApplyError → Bool
  | .ringBufferFull => true
  | _ => false

/-- Where a call stands between two of its sections. -/
inductive CallPc where
  /-- In front of Lock A. -/
  | lockA
  /-- Waits on `ring_not_full`. -/
  | ringNotFull
  /-- Looks at the signal of its last entry. -/
  | signal
  /-- Has found the signal unset and looks at `done` and at the role. -/
  | unsignaled
  /-- Waits for the results, a limited time. -/
  | results
  | returned (error : Option ApplyError)
  deriving Repr, DecidableEq

/--
A call of `apply_internal`.  Its result collector has the position of the call
as its number.
-/
structure Call where
  commands : List (List UInt8)
  pc : CallPc
  /-- The index of its first entry, once the entries have been appended. -/
  first : Option Nat := none
  /-- `last_signal->signaled`. -/
  signaled : Bool := false
  deriving Repr, DecidableEq

/-- The index of the last entry of a call whose entries start at `first`. -/
def Call.last
    (call : Call)
    (first : Nat) :
    Nat :=
  first + call.commands.length - 1

/-- A node and the client calls on it. -/
structure CallingNode where
  proc : Process
  calls : List Call := []

/-- A section of a call, or of the node. -/
inductive CallMove where
  /-- A client calls `apply`. -/
  | enter (commands : List (List UInt8))
  /-- Lock A, or the test on waking up from `ring_not_full`. -/
  | lockA (call : Nat) (outcomes : IoOutcomes)
  /-- The wait for room times out, or the server is shut down. -/
  | giveUp (call : Nat)
  | lookAtSignal (call : Nat)
  | lookAtRole (call : Nat) (done : Bool)
  /-- The results are there, or the wait for them times out. -/
  | collect (call : Nat)
  /-- Any other section of the node. -/
  | node (input : Input)

/-- The signal of the entry that the collector has at an index is set. -/
def Server.signalSet
    (server : Server)
    (sink logIdx : Nat) :
    Bool :=
  match server.entryView.entryAt? logIdx with
  | some entry =>
      decide (entry.resultSink = some sink) &&
        decide (entry.committed = some true)
  | none => false

/-- The call shares the signal with its last entry. -/
def Call.observe
    (call : Call)
    (sink : Nat)
    (server : Server) :
    Call :=
  match call.first with
  | some first =>
      { call with
        signaled := call.signaled || server.signalSet sink (call.last first) }
  | none => call

/-- What Lock A makes of a call. -/
def Call.settle
    (call : Call)
    (tailLogIndex : Nat) :
    ApplyOutcome → Call
  | .emptyRequest => { call with pc := .returned none }
  | .notLeader => { call with pc := .returned (some .notLeader) }
  | .ringFull => { call with pc := .ringNotFull }
  | .persistFailed exn =>
      { call with pc := .returned (some (.persistFailed exn)) }
  | .replicating => { call with pc := .signal, first := some tailLogIndex }

namespace CallingNode

/-- The node after a section, with the signals that the section has set. -/
def after
    (calls : List Call)
    (proc : Process) :
    CallingNode where
  proc
  calls := calls.mapIdx fun sink call => call.observe sink proc.server

/-- Replace a call. -/
def setCall
    (node : CallingNode)
    (index : Nat)
    (call : Call) :
    CallingNode :=
  { node with calls := node.calls.set index call }

/-- Lock A of a call. -/
def stepLockA
    (node : CallingNode)
    (index : Nat)
    (call : Call)
    (outcomes : IoOutcomes) :
    Option CallingNode :=
  match (applyCommands index call.commands).run
      (node.proc.server.withOutcomes outcomes) with
  | .ok outcome _ =>
      (node.proc.advance { outcomes, act := .apply index call.commands }).map
        (after (node.calls.set index
          (call.settle node.proc.server.ring.tailLogIndex outcome)))
  | .error _ _ => none

/-- The step of a call at the point where it stands. -/
def stepCall
    (node : CallingNode)
    (index : Nat)
    (call : Call) :
    CallMove → CallPc → Option CallingNode
  | .lockA _ outcomes, .lockA => node.stepLockA index call outcomes
  | .lockA _ outcomes, .ringNotFull => node.stepLockA index call outcomes
  | .giveUp _, .ringNotFull =>
      some (node.setCall index
        { call with pc := .returned (some .ringBufferFull) })
  | .lookAtSignal _, .signal =>
      some (node.setCall index
        { call with pc := if call.signaled then .results else .unsignaled })
  | .lookAtRole _ done, .unsignaled =>
      some (node.setCall index
        { call with
          pc :=
            if done then .returned (some .serverShuttingDown)
            else if node.proc.server.raft.state ≠ .leader then
              .returned (some .leadershipLost)
            else .signal })
  | .collect _, .results =>
      some (node.setCall index { call with pc := .returned none })
  | _, _ => none

end CallingNode

/-- The call that a move goes on with. -/
def CallMove.call? : CallMove → Option Nat
  | .lockA call _ => some call
  | .giveUp call => some call
  | .lookAtSignal call => some call
  | .lookAtRole call _ => some call
  | .collect call => some call
  | _ => none

/-- Lock A runs for a call only. -/
def Act.isApply : Act → Bool
  | .apply _ _ => true
  | _ => false

/-- A call goes on in a running process. -/
def CallingNode.goOn
    (node : CallingNode)
    (move : CallMove) :
    Option CallingNode :=
  match node.proc.halted, move.call? with
  | false, some index =>
      match node.calls[index]? with
      | some call => node.stepCall index call move call.pc
      | none => none
  | _, _ => none

/-- One step of a node with its client calls, which end with the process. -/
def CallingNode.step
    (node : CallingNode)
    (move : CallMove) :
    Option CallingNode :=
  match move with
  | .enter commands =>
      if node.proc.halted then
        none
      else
        some { node with
          calls := node.calls ++ [{
            commands
            pc := if commands.isEmpty then .returned none else .lockA }] }
  | .node input =>
      if input.act.isApply then
        none
      else
        (node.proc.advance input).map
          (after (if input.act.isRestart then [] else node.calls))
  | move =>
      node.goOn move

end NvmeofRaft
