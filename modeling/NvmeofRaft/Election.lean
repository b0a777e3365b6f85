import NvmeofRaft.Persist

namespace NvmeofRaft

/-!
# Elections

`raft_election.cpp`.  Every definition is one lock section: `timeout` up to
the point where it releases `mu`, the two sections of `request_vote_worker`
around the RPC, the vote handler, and `become_leader`.
-/

namespace Server

/-- The other members, in cluster order. -/
def peers (server : Server) : List Nat :=
  (List.range server.raft.cluster.length).filter fun index =>
    decide (index ≠ server.raft.clusterIndex)

/-- `raft.log.back().term`, or zero when only the sentinel is held. -/
def lastLogTerm (server : Server) : Nat :=
  if 1 < server.raft.log.length then
    (server.raft.log.getLastD {}).term
  else
    0

/-- `ring.tail_log_index - 1`. -/
def lastLogIndex (server : Server) : Nat :=
  server.ring.tailLogIndex - 1

/-- Change the consensus state. -/
def mapRaft
    (server : Server)
    (change : RaftState → RaftState) :
    Server :=
  { server with raft := change server.raft }

/-- Change the record of one member. -/
def mapMember
    (server : Server)
    (index : Nat)
    (change : ClusterMember → ClusterMember) :
    Server :=
  server.mapRaft fun raft =>
    { raft with cluster := raft.cluster.modify index change }

/-- `raft.cluster[index]`. -/
def member
    (server : Server)
    (index : Nat) :
    ClusterMember :=
  server.raft.cluster.getD index { id := 0 }

end Server

/-- The demotion of `update_term`, before it is persisted. -/
def Server.demote
    (server : Server)
    (msgTerm : Nat) :
    Server :=
  (server.mapRaft fun raft =>
    { raft with currentTerm := msgTerm, state := .follower }).setVotedFor 0

/-- `update_term`. -/
def updateTerm (msgTerm : Nat) : Section Bool := do
  let server ← get
  if server.raft.currentTerm < msgTerm then
    modify fun server => server.demote msgTerm
    persistCircular false 0
    return true
  else
    return false

/-- The candidacy of `timeout`, before it is persisted. -/
def Server.startElection (server : Server) : Server :=
  server.mapRaft fun raft =>
    { raft with
      state := .candidate
      currentTerm := raft.currentTerm + 1
      cluster := raft.cluster.mapIdx fun index member =>
        { member with
          votedFor := if index = raft.clusterIndex then raft.id else 0 } }

/-- `timeout`; the answer says whether `request_vote` is called next. -/
def timeout (expired : Bool) : Section Bool := do
  if expired then
    modify Server.startElection
    persistCircular false 0
    return true
  else
    return false

/-- The send section of `request_vote_worker`. -/
def requestVoteSend : Section RequestVoteRequest := do
  let server ← get
  return {
    term := server.raft.currentTerm
    candidateId := server.raft.id
    lastLogIndex := server.lastLogIndex
    lastLogTerm := server.lastLogTerm
  }

/-- Record a vote of a peer. -/
def Server.recordVote
    (server : Server)
    (peerIndex : Nat) :
    Server :=
  server.mapMember peerIndex fun member =>
    { member with votedFor := server.raft.id }

/-- The reply section of `request_vote_worker`. -/
def requestVoteReply
    (peerIndex : Nat)
    (req : RequestVoteRequest)
    (rsp : RequestVoteResponse) :
    Section Unit := do
  if ← updateTerm rsp.term then
    return
  if rsp.term ≠ req.term then
    return
  if rsp.voteGranted then
    modify fun server => server.recordVote peerIndex

/-- The log comparison of the vote handler. -/
def Server.logOk
    (server : Server)
    (req : RequestVoteRequest) :
    Bool :=
  decide (server.lastLogTerm < req.lastLogTerm) ||
    (decide (req.lastLogTerm = server.lastLogTerm) &&
      decide (server.lastLogIndex ≤ req.lastLogIndex))

/-- The `grant` test of the vote handler. -/
def Server.grants
    (server : Server)
    (req : RequestVoteRequest) :
    Bool :=
  decide (req.term = server.raft.currentTerm) && server.logOk req &&
    (decide (server.getVotedFor = 0) ||
      decide (server.getVotedFor = req.candidateId))

/-- `handle_request_vote_request`. -/
def handleRequestVoteRequest
    (req : RequestVoteRequest) :
    Section RequestVoteResponse := do
  discard (updateTerm req.term)
  let server ← get
  let rspTerm := server.raft.currentTerm
  if req.term < rspTerm then
    return { term := rspTerm, voteGranted := false }
  if server.grants req then
    modify fun server => server.setVotedFor req.candidateId
    persistCircular false 0
    return { term := rspTerm, voteGranted := true }
  else
    return { term := rspTerm, voteGranted := false }

/-- The vote count of `become_leader`: what is left of the quorum. -/
def Server.quorumLeft (server : Server) : Nat :=
  server.raft.cluster.foldl
    (fun quorum member =>
      if member.votedFor = server.raft.id ∧ 0 < quorum then
        quorum - 1
      else
        quorum)
    (server.raft.cluster.length / 2 + 1)

/--
Load the command of a deferred entry.  `load` is the outcome of
`read_entry_direct` for a slot; a failed read leaves the entry as it is.
-/
def loadDeferred
    (load : Nat → Option (List UInt8))
    (entry : Entry) :
    Entry :=
  if entry.command.isEmpty ∧ entry.ringSlot ≠ 0 then
    match load entry.ringSlot with
    | some command => { entry with command, ringSlot := 0 }
    | none => entry
  else
    entry

/-- Load all deferred entries; the sentinel is not touched. -/
def Server.loadDeferredEntries
    (server : Server)
    (load : Nat → Option (List UInt8)) :
    Server :=
  server.mapRaft fun raft =>
    { raft with
      log := raft.log.take 1 ++ (raft.log.drop 1).map (loadDeferred load) }

/-- The guard of the apply loops of `become_leader` and `apply_pending`. -/
def Server.canApply
    (server : Server)
    (oldest : Nat) :
    Bool :=
  decide (oldest ≤ server.raft.lastApplied) &&
    decide (server.raft.lastApplied < server.ring.tailLogIndex) &&
    decide (server.raft.lastApplied ≤ server.raft.commitIndex)

/--
The apply loop of `become_leader`.  The bound on the number of iterations is
the distance from `last_applied` to the tail.
-/
def applyLoaded
    (oldest : Nat) :
    Nat → Server → Server
  | 0, server =>
      server
  | bound + 1, server =>
      if server.canApply oldest then
        let command := (server.logAt server.raft.lastApplied).command
        applyLoaded oldest bound
          { server with
            raft := { server.raft with
              lastApplied := server.raft.lastApplied + 1 }
            statemachine :=
              if command.isEmpty then
                server.statemachine
              else
                server.statemachine ++ [command] }
      else
        server

/-- Append an entry and advance the tail. -/
def Server.pushEntry
    (server : Server)
    (entry : Entry) :
    Server :=
  { server with
    raft := { server.raft with log := server.raft.log ++ [entry] }
    ring := { server.ring with
      tailLogIndex := server.ring.tailLogIndex + 1 } }

/-- The new role, with the slot states rebuilt from the surviving map. -/
def Server.takeLead (server : Server) : Server :=
  { server with
    raft := { server.raft with state := .leader }
    ring := { rebuildSlotStatesFromMap server.ring with
      gcUpTo := 0
      gcHasRun := false } }

/-- Apply what is committed and loaded. -/
def Server.applyLoadedEntries (server : Server) : Server :=
  applyLoaded server.oldestLogIndex
    (server.ring.tailLogIndex - server.raft.lastApplied) server

/-- `become_leader` up to and including the append of the no-op entry. -/
def Server.promote
    (server : Server)
    (load : Nat → Option (List UInt8)) :
    Server :=
  let ready := (server.takeLead.loadDeferredEntries load).applyLoadedEntries
  ready.pushEntry { term := ready.raft.currentTerm }

/-- The reset of the replication progress at the end of `become_leader`. -/
def Server.resetProgress (server : Server) : Server :=
  server.mapRaft fun raft =>
    { raft with
      cluster := raft.cluster.map fun member =>
        { member with
          nextIndex := server.ring.tailLogIndex - 1
          matchIndex := 0 } }

/-- `become_leader`. -/
def becomeLeader
    (load : Nat → Option (List UInt8)) :
    Section Unit := do
  let server ← get
  if server.quorumLeft = 0 then
    modify fun server => server.promote load
    persistCircular true 1
    modify Server.resetProgress

end NvmeofRaft
