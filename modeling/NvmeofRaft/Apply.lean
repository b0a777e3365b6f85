import NvmeofRaft.Election

namespace NvmeofRaft

/-!
# Client commands

Lock A of `apply_internal` (`raft_apply.cpp`).  A caller that finds the ring
full waits with `mu` released; the test it makes on waking up is a later
attempt of the same section.
-/

/-- How Lock A of `apply_internal` ends. -/
inductive ApplyOutcome where
  | emptyRequest
  | notLeader
  | ringFull
  | persistFailed (exn : Exn)
  | replicating
  deriving Repr, DecidableEq

/-- Append the entries of a request, which share one result collector. -/
def Server.appendCommands
    (server : Server)
    (sink : Nat)
    (commands : List (List UInt8)) :
    Server :=
  commands.foldl
    (fun server command =>
      server.pushEntry {
        command
        term := server.raft.currentTerm
        resultSink := some sink
      })
    server

/-- The rollback after a failed persist: the sentinel is never popped. -/
def Server.popEntries :
    Nat → Server → Server
  | 0, server =>
      server
  | count + 1, server =>
      if 1 < server.raft.log.length then
        popEntries count
          { server with
            raft := { server.raft with log := server.raft.log.dropLast }
            ring := { server.ring with
              tailLogIndex := sub64 server.ring.tailLogIndex 1 } }
      else
        server

/-- Lock A of `apply_internal`. -/
def applyCommands
    (sink : Nat)
    (commands : List (List UInt8)) :
    Section ApplyOutcome := do
  let server ← get
  if commands.isEmpty then
    return .emptyRequest
  if server.raft.state ≠ .leader then
    return .notLeader
  if !canWriteAll server.ring commands then
    return .ringFull
  modify fun server => server.appendCommands sink commands
  try
    persistCircular true commands.length
    pure .replicating
  catch exn =>
    modify fun server => server.popEntries commands.length
    pure (.persistFailed exn)

end NvmeofRaft
