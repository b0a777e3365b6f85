import NvmeofRaft.AppendEntries
import NvmeofRaft.Apply
import NvmeofRaft.Commit

namespace NvmeofRaft

/-!
# One node

`raft_lifecycle.cpp`: start-up, and the threads that run the lock sections.
A process is the server with the program counter of `main_loop`, the worker
and handler threads that are between two sections, and a history of what the
sections did.  One step runs one section, with the outcomes of its I/O calls
as part of the input, so a run is an interleaving of the node's sections.
-/

/-- The state a constructed `Server` has before `init_storage` runs. -/
def Server.constructed (server : Server) : Server where
  raft := {
    id := server.raft.id
    cluster := server.raft.cluster.map fun member => { id := member.id }
    clusterIndex := server.raft.clusterIndex
  }
  ring := {
    numPages := server.ring.numPages
    totalSlots := server.ring.totalSlots
    ringSlots := server.ring.ringSlots
    logTrimThreshold := server.ring.logTrimThreshold
  }
  io := {
    file := server.io.file
    fileSize := server.io.fileSize
    stable := server.io.stable
    outcomes := server.io.outcomes
    headerWrites := server.io.headerWrites
    persistReturns := server.io.persistReturns
  }
  maxAeBatch := server.maxAeBatch
  maxAeBatchBytes := server.maxAeBatchBytes
  replicationMode := server.replicationMode

/-- Take over the term and vote of a header. -/
def Server.restoreHeader
    (server : Server)
    (header : List UInt8) :
    Server :=
  let headerTerm := getU64Le header
  let headerVote := getU64Le (header.drop 8)
  let server :=
    (server.mapRaft fun raft =>
      { raft with currentTerm := headerTerm }).setVotedFor headerVote
  if headerTerm ≠ 0 ∨ headerVote ≠ 0 then
    { server with
      ring := { server.ring with
        persistedInit := true
        persistedTerm := headerTerm
        persistedVotedFor := headerVote } }
  else
    server

/-- The fallback when the header cannot be read. -/
def Server.freshHeader (server : Server) : Server :=
  let server :=
    (server.mapRaft fun raft => { raft with currentTerm := 0 }).setVotedFor 0
  { server with ring := { server.ring with persistedInit := false } }

/-- The log, index and slot state every start begins with. -/
def Server.resetLog (server : Server) : Server :=
  { server with
    raft := { server.raft with
      log := [{}]
      commitIndex := 0
      lastApplied := 1
      state := .follower }
    ring := { initSlotStates server.ring with
      tailLogIndex := 1
      tailSlot := 0
      headSlot := 0 } }

/-- Recover term and vote from the header, and nothing else. -/
def recoverHeader (kernel : KernelAnswers) : Section Unit := do
  try
    let header ← readAtFile kernel headerSize 0
    modify fun server => server.restoreHeader header
  catch _ =>
    modify Server.freshHeader

/-- `init_storage`. -/
def initStorage (kernel : KernelAnswers) : Section Unit := do
  let want := (← get).ring.fileSizeBytes
  let actual ← createRingFile kernel want
  if actual < want then
    throw .ringFileTooSmall
  if !kernel.devicePathGiven then
    throw .deviceIsEmpty
  match kernel.fiemap with
  | none =>
      throw .fiemapFailed
  | some extents =>
      modify fun server => { server with io := { server.io with extents } }
  discard (getPba 0 headerSize)
  recoverHeader kernel
  modify Server.resetLog

/-- Where `main_loop` is, between two of its lock sections. -/
inductive MainPc where
  | top
  | heartbeat
  | appendEntries
  | advanceCommit
  | timeout (state : ServerState)
  | requestVote (state : ServerState)
  | becomeLeader
  deriving Repr, DecidableEq

/-- What follows `timeout` in the branch of `main_loop` for the state. -/
def MainPc.afterTimeout : ServerState → MainPc
  | .candidate => .becomeLeader
  | _ => .advanceCommit

/-- A spawned or handler thread, between two of its lock sections. -/
inductive Thread where
  | voteWorker (peerIndex : Nat)
  | voteCall (peerIndex : Nat) (req : RequestVoteRequest)
  | appendWorker (fi : Nat)
  | leaderCopy (fi : Nat) (call : AppendCall)
  | appendCall (fi : Nat) (call : AppendCall)
  | appendHandler (src : Nat) (pending : PendingAppend)
  | applier
  deriving Repr, DecidableEq

/-- What a section did, as far as the properties of runs speak about it. -/
inductive Event where
  /-- `become_leader` set the state to Leader in this term. -/
  | becameLeader (term : Nat)
  /-- The vote handler answered `vote_granted = true`. -/
  | voteGranted (term candidateId : Nat)
  /-- A vote request was built in this state, with this own vote. -/
  | voteBuilt (req : RequestVoteRequest) (state : ServerState) (vote : Nat)
  /-- An append request was built in this state. -/
  | appendBuilt (req : AppendEntriesRequest) (state : ServerState)
  /--
  The append handler appended entries, advanced the commit index or answered
  success, in this state and term.
  -/
  | appendAccepted (req : AppendEntriesRequest) (state : ServerState)
      (term : Nat)
  /-- The process stopped in this term and was started again. -/
  | restarted (term : Nat)
  deriving Repr, DecidableEq

/--
A node.  A process is halted when an exception has left one of its threads,
or when a handler left by an exception with `mu` held.
-/
structure Process where
  server : Server
  main : MainPc := .top
  threads : List Thread := []
  halted : Bool := false
  history : List Event := []

/-- What one node sends to another, addressed by cluster index. -/
inductive Payload where
  | voteRequest (req : RequestVoteRequest)
  | voteResponse (req : RequestVoteRequest) (rsp : RequestVoteResponse)
  | appendRequest (req : AppendEntriesRequest)
  | appendResponse (req : AppendEntriesRequest) (rsp : AppendEntriesResponse)
  deriving Repr, DecidableEq

/-- The section to run next and the inputs it gets. -/
inductive Act where
  /-- The next section of `main_loop`; `expired` answers its timer test. -/
  | main (expired : Bool) (load : Nat → Option (List UInt8))
  | voteSend (thread : Nat)
  | voteReply (thread : Nat) (rsp : RequestVoteResponse)
  | voteDrop (thread : Nat)
  | appendSend (thread : Nat)
  | leaderCopied (thread : Nat) (copied : Bool)
  | appendReply (thread : Nat) (rsp : AppendEntriesResponse)
  | appendDrop (thread : Nat)
  | handleVote (src : Nat) (req : RequestVoteRequest)
  | handleAppend (src : Nat) (req : AppendEntriesRequest)
  | handleAppendFinish (thread : Nat) (copied : Bool)
  | apply (sink : Nat) (commands : List (List UInt8))
  | applySpawn (thread : Nat)
  | applyPending
  | slotGc
  /-- Stop the process, if it still runs, and start it again. -/
  | restart (kernel : KernelAnswers) (cacheLost : Bool)

/-- The server with the outcomes of the coming I/O calls replaced. -/
def Server.withOutcomes
    (server : Server)
    (outcomes : IoOutcomes) :
    Server :=
  { server with io := { server.io with outcomes } }

/-- Messages addressed by cluster index. -/
abbrev Outputs := List (Nat × Payload)

namespace Process

/-- Add to the history. -/
def note
    (proc : Process)
    (event : Event) :
    Process :=
  { proc with history := event :: proc.history }

/-- An exception left the thread, or `mu` stays locked. -/
def halt (proc : Process) : Process :=
  { proc with halted := true }

/-- Replace the thread at a position. -/
def setThread
    (proc : Process)
    (index : Nat)
    (thread : Thread) :
    Process :=
  { proc with threads := proc.threads.set index thread }

/-- The thread at a position has ended. -/
def endThread
    (proc : Process)
    (index : Nat) :
    Process :=
  { proc with threads := proc.threads.eraseIdx index }

/-- Start new threads. -/
def spawn
    (proc : Process)
    (threads : List Thread) :
    Process :=
  { proc with threads := proc.threads ++ threads }

/-- Continue `main_loop` at another point. -/
def goto
    (proc : Process)
    (main : MainPc) :
    Process :=
  { proc with main }

/--
Run one section with the given I/O outcomes and continue with its value, or
with `none` when it threw.
-/
def exec
    {α : Type}
    (proc : Process)
    (outcomes : IoOutcomes)
    (body : Section α)
    (after : Process → Option α → Process × Outputs) :
    Process × Outputs :=
  match body.run (proc.server.withOutcomes outcomes) with
  | .ok value server => after { proc with server } (some value)
  | .error _ server => after { proc with server } none

/-- Run one section; an exception that leaves it halts the process. -/
def execOrHalt
    {α : Type}
    (proc : Process)
    (outcomes : IoOutcomes)
    (body : Section α)
    (after : Process → α → Process × Outputs) :
    Process × Outputs :=
  proc.exec outcomes body fun proc ended =>
    match ended with
    | some value => after proc value
    | none => (proc.halt, [])

/-- `append_entries`: one worker for every peer. -/
def spawnAppends (proc : Process) : Process :=
  proc.spawn (proc.server.peers.map Thread.appendWorker)

/-- `request_vote`: one worker for every peer. -/
def spawnVotes (proc : Process) : Process :=
  proc.spawn (proc.server.peers.map Thread.voteWorker)

/-- Note that the append handler acted on the request. -/
def noteAccepted
    (proc : Process)
    (before : Server)
    (req : AppendEntriesRequest)
    (success : Bool) :
    Process :=
  let raft := proc.server.raft
  if success ∨ raft.log.length ≠ before.raft.log.length ∨
      raft.commitIndex ≠ before.raft.commitIndex then
    proc.note (.appendAccepted req raft.state raft.currentTerm)
  else
    proc

/-- The end of an append handler. -/
def replyAppend
    (proc : Process)
    (before : Server)
    (src : Nat)
    (req : AppendEntriesRequest)
    (rsp : AppendEntriesResponse) :
    Process × Outputs :=
  (proc.noteAccepted before req rsp.success,
    [(src, .appendResponse req rsp)])

/-- One section of `main_loop`. -/
def stepMain
    (proc : Process)
    (outcomes : IoOutcomes)
    (expired : Bool)
    (load : Nat → Option (List UInt8)) :
    Process × Outputs :=
  match proc.main with
  | .top =>
      match proc.server.raft.state with
      | .leader => (proc.goto .heartbeat, [])
      | state => (proc.goto (.timeout state), [])
  | .heartbeat =>
      (proc.goto (if expired then .appendEntries else .advanceCommit), [])
  | .appendEntries =>
      (proc.spawnAppends.goto .advanceCommit, [])
  | .advanceCommit =>
      proc.execOrHalt outcomes advanceCommitIndex
        fun proc _ => (proc.goto .top, [])
  | .timeout state =>
      proc.execOrHalt outcomes (NvmeofRaft.timeout expired) fun proc fired =>
        (proc.goto
          (if fired then .requestVote state else .afterTimeout state), [])
  | .requestVote state =>
      (proc.spawnVotes.goto (.afterTimeout state), [])
  | .becomeLeader =>
      let won :=
        if proc.server.quorumLeft = 0 then
          proc.note (.becameLeader proc.server.raft.currentTerm)
        else
          proc
      won.execOrHalt outcomes (NvmeofRaft.becomeLeader load)
        fun proc _ => (proc.goto .top, [])

/-- The send section of `request_vote_worker`. -/
def stepVoteSend
    (proc : Process)
    (outcomes : IoOutcomes)
    (index peerIndex : Nat) :
    Process × Outputs :=
  proc.execOrHalt outcomes requestVoteSend fun proc req =>
    ((proc.setThread index (.voteCall peerIndex req)).note
        (.voteBuilt req proc.server.raft.state proc.server.getVotedFor),
      [(peerIndex, .voteRequest req)])

/-- The reply section of `request_vote_worker`. -/
def stepVoteReply
    (proc : Process)
    (outcomes : IoOutcomes)
    (index peerIndex : Nat)
    (req : RequestVoteRequest)
    (rsp : RequestVoteResponse) :
    Process × Outputs :=
  proc.execOrHalt outcomes (requestVoteReply peerIndex req rsp)
    fun proc _ => (proc.endThread index, [])

/--
Lock B of `append_entries_worker`.  In leader-side mode the request waits for
the block copy before it is sent.
-/
def stepAppendSend
    (proc : Process)
    (outcomes : IoOutcomes)
    (index fi : Nat) :
    Process × Outputs :=
  proc.execOrHalt outcomes (appendEntriesSend fi) fun proc built =>
    match built with
    | some call =>
        let proc := proc.note (.appendBuilt call.req proc.server.raft.state)
        if call.hasEntries ∧ proc.server.replicationMode = .leaderSide then
          (proc.setThread index (.leaderCopy fi call), [])
        else
          (proc.setThread index (.appendCall fi call),
            [(fi, .appendRequest call.req)])
    | none => (proc.endThread index, [])

/-- Lock C of `append_entries_worker`; `none` is a failed call. -/
def stepAppendReply
    (proc : Process)
    (outcomes : IoOutcomes)
    (index fi : Nat)
    (call : AppendCall)
    (answer : Option AppendEntriesResponse) :
    Process × Outputs :=
  proc.execOrHalt outcomes (appendEntriesReply fi call answer)
    fun proc _ => (proc.endThread index, [])

/-- The end of the leader-side copy of `append_entries_worker`. -/
def stepLeaderCopied
    (proc : Process)
    (outcomes : IoOutcomes)
    (index fi : Nat)
    (call : AppendCall)
    (copied : Bool) :
    Process × Outputs :=
  if copied then
    let call :=
      { call with req := { call.req with dataAlreadyCopied := true } }
    (proc.setThread index (.appendCall fi call),
      [(fi, .appendRequest call.req)])
  else
    proc.stepAppendReply outcomes index fi call none

/-- The vote handler; its caller turns an exception into an error reply. -/
def stepHandleVote
    (proc : Process)
    (outcomes : IoOutcomes)
    (src : Nat)
    (req : RequestVoteRequest) :
    Process × Outputs :=
  proc.exec outcomes (handleRequestVoteRequest req) fun proc answer =>
    match answer with
    | some rsp =>
        (if rsp.voteGranted then
            proc.note (.voteGranted rsp.term req.candidateId)
          else
            proc,
          [(src, .voteResponse req rsp)])
    | none => (proc, [])

/-- The first section of the append handler. -/
def stepHandleAppend
    (proc : Process)
    (outcomes : IoOutcomes)
    (src : Nat)
    (req : AppendEntriesRequest) :
    Process × Outputs :=
  let before := proc.server
  proc.exec outcomes (handleAppendEntriesRequest req) fun proc progress =>
    match progress with
    | some (.replied rsp) => proc.replyAppend before src req rsp
    | some (.copying pending) =>
        (proc.spawn [.appendHandler src pending], [])
    | none => ((proc.noteAccepted before req false).halt, [])

/-- The second section of the append handler. -/
def stepHandleAppendFinish
    (proc : Process)
    (outcomes : IoOutcomes)
    (index src : Nat)
    (pending : PendingAppend)
    (copied : Bool) :
    Process × Outputs :=
  let before := proc.server
  proc.exec outcomes (handleAppendEntriesFinish pending copied)
    fun proc answer =>
      match answer with
      | some rsp =>
          (proc.endThread index).replyAppend before src pending.req rsp
      | none => ((proc.noteAccepted before pending.req false).halt, [])

/-- Lock A of `apply_internal`. -/
def stepApply
    (proc : Process)
    (outcomes : IoOutcomes)
    (sink : Nat)
    (commands : List (List UInt8)) :
    Process × Outputs :=
  proc.execOrHalt outcomes (applyCommands sink commands)
    fun proc outcome =>
      (if outcome = .replicating then proc.spawn [.applier] else proc, [])

/-- A new process starts; its history goes on from the given one. -/
def startUp
    (proc : Process)
    (outcomes : IoOutcomes)
    (kernel : KernelAnswers) :
    Process × Outputs :=
  let started : Process :=
    { server := proc.server.constructed, history := proc.history }
  started.execOrHalt outcomes (initStorage kernel) fun proc _ => (proc, [])

/--
The process stops and a new one starts on the same ring file.  Unsynced
contents may be lost with it.
-/
def stepRestart
    (proc : Process)
    (outcomes : IoOutcomes)
    (kernel : KernelAnswers)
    (cacheLost : Bool) :
    Process × Outputs :=
  let io := proc.server.io
  let left := { proc.server with
    io := { io with file := if cacheLost then io.stable else io.file } }
  ({ proc with server := left }.note
    (.restarted proc.server.raft.currentTerm)).startUp outcomes kernel

/-- The step of a running process for the thread an act names. -/
def stepThread
    (proc : Process)
    (outcomes : IoOutcomes) :
    Act → Option Thread → Option (Process × Outputs)
  | .voteSend index, some (.voteWorker peerIndex) =>
      some (proc.stepVoteSend outcomes index peerIndex)
  | .voteReply index rsp, some (.voteCall peerIndex req) =>
      some (proc.stepVoteReply outcomes index peerIndex req rsp)
  | .voteDrop index, some (.voteCall _ _) =>
      some (proc.endThread index, [])
  | .appendSend index, some (.appendWorker fi) =>
      some (proc.stepAppendSend outcomes index fi)
  | .leaderCopied index copied, some (.leaderCopy fi call) =>
      some (proc.stepLeaderCopied outcomes index fi call copied)
  | .appendReply index rsp, some (.appendCall fi call) =>
      some (proc.stepAppendReply outcomes index fi call (some rsp))
  | .appendDrop index, some (.appendCall fi call) =>
      some (proc.stepAppendReply outcomes index fi call none)
  | .handleAppendFinish index copied, some (.appendHandler src pending) =>
      some (proc.stepHandleAppendFinish outcomes index src pending copied)
  | .applySpawn index, some .applier =>
      some ((proc.endThread index).spawnAppends, [])
  | _, _ =>
      none

end Process

/-- The position of the thread that an act continues. -/
def Act.thread? : Act → Option Nat
  | .voteSend index => some index
  | .voteReply index _ => some index
  | .voteDrop index => some index
  | .appendSend index => some index
  | .leaderCopied index _ => some index
  | .appendReply index _ => some index
  | .appendDrop index => some index
  | .handleAppendFinish index _ => some index
  | .applySpawn index => some index
  | _ => none

/--
One step of a node: the section the act names, with the given outcomes of its
I/O calls.  The result is `none` when the node cannot take the step.
-/
def Process.step
    (proc : Process)
    (outcomes : IoOutcomes)
    (act : Act) :
    Option (Process × Outputs) :=
  match act with
  | .restart kernel cacheLost =>
      some (proc.stepRestart outcomes kernel cacheLost)
  | act =>
      if proc.halted then
        none
      else
        match act with
        | .main expired load =>
            some (proc.stepMain outcomes expired load)
        | .handleVote src req =>
            some (proc.stepHandleVote outcomes src req)
        | .handleAppend src req =>
            some (proc.stepHandleAppend outcomes src req)
        | .apply sink commands =>
            some (proc.stepApply outcomes sink commands)
        | .applyPending =>
            some (proc.execOrHalt outcomes NvmeofRaft.applyPending
              fun proc _ => (proc, []))
        | .slotGc =>
            some (proc.execOrHalt outcomes doSlotGc fun proc _ => (proc, []))
        | act =>
            proc.stepThread outcomes act
              (act.thread?.bind fun index => proc.threads[index]?)

/-- The input of one step: the act and the outcomes of its I/O calls. -/
structure Input where
  outcomes : IoOutcomes := {}
  act : Act

/-- One step of a node whose messages are not followed further. -/
def Process.advance
    (proc : Process)
    (input : Input) :
    Option Process :=
  (proc.step input.outcomes input.act).map Prod.fst

end NvmeofRaft
