import Mathlib.Data.List.Sort
import NvmeofRaft.Election

namespace NvmeofRaft

/-!
# Commit, apply and garbage collection

`raft_commit.cpp`.  The wake-up flags of the worker threads are not part of
the state: both workers also wake up on their own, so `apply_pending` and
`do_slot_gc` may run at any moment.
-/

/-- `matches`: the own last index and the match index of every peer. -/
def Server.matchIndices (server : Server) : List Nat :=
  server.raft.cluster.mapIdx fun index member =>
    if index = server.raft.clusterIndex then
      server.lastLogIndex
    else
      member.matchIndex

/-- `majority_idx`: the middle of the match indices in descending order. -/
def Server.majorityIndex (server : Server) : Nat :=
  let ordered := server.matchIndices.insertionSort (· ≥ ·)
  ordered.getD (ordered.length / 2) 0

/-- `signal_committed` on an entry that still has its signal. -/
def Entry.signalCommitted (entry : Entry) : Entry :=
  { entry with committed := entry.committed.map fun _ => true }

/-- The signal loop of `advance_commit_index`, over `count` indices. -/
def signalCommittedFrom :
    Nat → Nat → Server → Server
  | 0, _, server =>
      server
  | count + 1, logIdx, server =>
      signalCommittedFrom count (logIdx + 1)
        (if server.oldestLogIndex ≤ logIdx ∧
            logIdx < server.ring.tailLogIndex then
          server.mapRaft fun raft =>
            { raft with
              log := raft.log.modify (server.logSlice logIdx)
                Entry.signalCommitted }
        else
          server)

/-- Raise the commit index and signal the entries on the way. -/
def Server.commitTo
    (server : Server)
    (majorityIdx : Nat) :
    Server :=
  signalCommittedFrom (majorityIdx - server.raft.commitIndex)
    (server.raft.commitIndex + 1)
    (server.mapRaft fun raft => { raft with commitIndex := majorityIdx })

/-- `advance_commit_index`, without its wake-ups of the workers. -/
def advanceCommitIndex : Section Unit := do
  let server ← get
  let majorityIdx := server.majorityIndex
  if server.raft.state = .leader ∧
      server.raft.commitIndex < majorityIdx ∧
      majorityIdx < server.ring.tailLogIndex ∧
      (server.logAt majorityIdx).term = server.raft.currentTerm then
    modify fun server => server.commitTo majorityIdx

/-- The entry after `apply_pending` has passed it on. -/
def Entry.release (entry : Entry) : Entry :=
  { entry with
    cmdLen := entry.command.length
    command := []
    resultSink := none
    committed := none
    ringSlot := 0 }

/-- One iteration of the loop of `apply_pending`. -/
def Server.applyEntry (server : Server) : Server :=
  let entry := server.logAt server.raft.lastApplied
  { server with
    raft := { server.raft with
      log := server.raft.log.modify
        (server.logSlice server.raft.lastApplied) Entry.release
      lastApplied := server.raft.lastApplied + 1 }
    statemachine :=
      if entry.command.isEmpty then
        server.statemachine
      else
        server.statemachine ++ [entry.command]
    results :=
      match entry.command.isEmpty, entry.resultSink with
      | false, some sink => server.results ++ [(sink, entry.command)]
      | _, _ => server.results }

/--
The loop of `apply_pending`.  Its batch limit only resets the election timer:
the lock stays held, so the role and the oldest index do not change.
-/
def applyPendingLoop
    (oldest : Nat) :
    Nat → Server → Server
  | 0, server =>
      server
  | bound + 1, server =>
      if server.canApply oldest then
        applyPendingLoop oldest bound server.applyEntry
      else
        server

/-- A leader passes its committed entries on. -/
def Server.applyCommitted (server : Server) : Server :=
  if server.raft.state = .leader then
    applyPendingLoop server.oldestLogIndex
      (server.ring.tailLogIndex - server.raft.lastApplied) server
  else
    server

/-- `apply_pending`. -/
def applyPending : Section Unit :=
  modify Server.applyCommitted

/-- `min_match`: the lowest match index of the peers, at most the own last. -/
def Server.minMatch (server : Server) : Nat :=
  server.matchIndices.foldl min server.lastLogIndex

/-- The erase loop of `do_slot_gc`, over `count` indices. -/
def eraseSlots :
    Nat → Nat → SlotMap → SlotMap
  | 0, _, slots =>
      slots
  | count + 1, logIdx, slots =>
      eraseSlots count (logIdx + 1) (slots.erase logIdx)

/-- `trim_log_locked`. -/
def trimLogLocked
    (minMatch : Nat)
    (server : Server) :
    Server :=
  let size := server.raft.log.length
  let trimUpto := min minMatch server.raft.lastApplied
  let oldest := server.oldestLogIndex
  if server.ring.logTrimThreshold = 0 ∨ size ≤ 1 ∨ trimUpto ≤ oldest ∨
      trimUpto - oldest < server.ring.logTrimThreshold then
    server
  else
    let removable := min (trimUpto - oldest) (size - 1)
    server.mapRaft fun raft =>
      { raft with log := raft.log.take 1 ++ raft.log.drop (1 + removable) }

/-- The slot part of `do_slot_gc`. -/
def RingLog.freeSlots
    (ring : RingLog)
    (minMatch : Nat) :
    RingLog :=
  let slots := eraseSlots (minMatch - ring.gcUpTo) (ring.gcUpTo + 1)
    ring.logSlotMap
  let freed := decide (slots.entries.length < ring.logSlotMap.entries.length)
  let ring := { ring with
    logSlotMap := slots
    gcUpTo := minMatch
    gcHasRun := true }
  if freed then recomputeHeadSlot ring else ring

/-- A leader frees the slots and entries that every peer has. -/
def Server.collectGarbage (server : Server) : Server :=
  if server.raft.state = .leader then
    trimLogLocked server.minMatch
      { server with ring := server.ring.freeSlots server.minMatch }
  else
    server

/-- `do_slot_gc`. -/
def doSlotGc : Section Unit :=
  modify Server.collectGarbage

end NvmeofRaft
