import NvmeofRaft.LeaderView

namespace NvmeofRaft

/-!
# What no section changes

The identity of a node, its membership and its ring geometry are set when the
server is constructed and stay the same over every step, restarts included.
-/

/-- The part of a server that is fixed at construction. -/
structure Configuration where
  id : Nat
  clusterIndex : Nat
  memberIds : List Nat
  numPages : Nat
  ringSlots : Nat
  logTrimThreshold : Nat

/-- The configuration of a server. -/
def Server.configuration (server : Server) : Configuration where
  id := server.raft.id
  clusterIndex := server.raft.clusterIndex
  memberIds := server.raft.cluster.map ClusterMember.id
  numPages := server.ring.numPages
  ringSlots := server.ring.ringSlots
  logTrimThreshold := server.ring.logTrimThreshold

/-- The configuration with the header cache and the storage. -/
structure Ground where
  configuration : Configuration
  persistedInit : Bool
  persistedTerm : Nat
  persistedVotedFor : Nat
  io : StorageIo

/-- What changes of the consensus state leave alone. -/
def Server.ground (server : Server) : Ground where
  configuration := server.configuration
  persistedInit := server.ring.persistedInit
  persistedTerm := server.ring.persistedTerm
  persistedVotedFor := server.ring.persistedVotedFor
  io := server.io

/-- A server without its role, its log, its slots and what it has applied. -/
def Server.besidesLog (server : Server) : Server :=
  { server with
    raft := { server.raft with
      log := []
      commitIndex := 0
      lastApplied := 0
      state := .follower }
    ring := { server.ring with
      tailLogIndex := 0
      tailSlot := 0
      headSlot := 0
      gcUpTo := 0
      gcHasRun := false
      logSlotMap := ∅ }
    statemachine := []
    results := [] }

section

variable (server : Server)

theorem recomputeHeadSlot_besidesLog
    (ring : RingLog) :
    { server with ring := recomputeHeadSlot ring }.besidesLog =
      { server with ring := ring }.besidesLog := by
  obtain ⟨headSlot, same⟩ := recomputeHeadSlot_only ring
  rw [same]
  rfl

theorem takeLead_besidesLog :
    server.takeLead.besidesLog = server.besidesLog :=
  recomputeHeadSlot_besidesLog server
    { server.ring with logSlotMap := server.ring.logSlotMap.markUsing }

theorem applyLoaded_besidesLog
    (oldest : Nat) :
    ∀ bound (server : Server),
      (applyLoaded oldest bound server).besidesLog =
        server.besidesLog := by
  intro bound server
  obtain ⟨lastApplied, statemachine, same⟩ :=
    applyLoaded_only oldest bound server
  rw [same]
  rfl

theorem promote_besidesLog
    (load : Nat → Option (List UInt8)) :
    (server.promote load).besidesLog = server.besidesLog := by
  show (Server.applyLoadedEntries _).besidesLog = _
  rw [Server.applyLoadedEntries, applyLoaded_besidesLog]
  exact takeLead_besidesLog server

theorem appendMetas_besidesLog
    (skipEntries : Nat) :
    ∀ (metas : List EntryMeta) (index : Nat) (server : Server),
      (appendMetas skipEntries index metas server).besidesLog =
        server.besidesLog := by
  intro metas index server
  obtain ⟨log, tailSlot, same⟩ :=
    appendMetas_only skipEntries metas index server
  rw [same]
  rfl

theorem buildLog_besidesLog
    (req : AppendEntriesRequest)
    (newTail skipEntries : Nat) :
    (server.buildLog req newTail skipEntries).besidesLog =
      server.besidesLog := by
  unfold Server.buildLog
  split
  · exact appendMetas_besidesLog skipEntries req.entryMetas 0 server
  · rfl

theorem stepDown_besidesLog
    (req : AppendEntriesRequest) :
    (server.stepDown req).besidesLog = server.besidesLog := by
  unfold Server.stepDown
  split <;> rfl

theorem signalCommittedFrom_besidesLog :
    ∀ count logIdx (server : Server),
      (signalCommittedFrom count logIdx server).besidesLog =
        server.besidesLog := by
  intro count logIdx server
  obtain ⟨log, same⟩ := signalCommittedFrom_only count logIdx server
  rw [same]
  rfl

theorem applyPendingLoop_besidesLog
    (oldest : Nat) :
    ∀ bound (server : Server),
      (applyPendingLoop oldest bound server).besidesLog =
        server.besidesLog := by
  intro bound server
  obtain ⟨log, lastApplied, statemachine, results, same⟩ :=
    applyPendingLoop_only oldest bound server
  rw [same]
  rfl

theorem appendCommands_besidesLog
    (sink : Nat) :
    ∀ (commands : List (List UInt8)) (server : Server),
      (server.appendCommands sink commands).besidesLog =
        server.besidesLog := by
  intro commands server
  obtain ⟨log, tailLogIndex, same⟩ :=
    appendCommands_only sink commands server
  rw [same]
  rfl

theorem popEntries_besidesLog :
    ∀ count (server : Server),
      (server.popEntries count).besidesLog = server.besidesLog := by
  intro count server
  obtain ⟨log, tailLogIndex, same⟩ := popEntries_only count server
  rw [same]
  rfl

theorem freeSlots_besidesLog
    (minMatch : Nat) :
    { server with ring := server.ring.freeSlots minMatch }.besidesLog =
      server.besidesLog := by
  obtain ⟨headSlot, same⟩ := freeSlots_only server.ring minMatch
  rw [same]
  rfl

theorem trimLogLocked_besidesLog
    (minMatch : Nat) :
    (trimLogLocked minMatch server).besidesLog =
      server.besidesLog := by
  obtain ⟨log, same⟩ := trimLogLocked_only minMatch server
  rw [same]
  rfl

theorem commitTo_besidesLog
    (majorityIdx : Nat) :
    (server.commitTo majorityIdx).besidesLog = server.besidesLog :=
  signalCommittedFrom_besidesLog _ _ _

theorem applyCommitted_besidesLog :
    server.applyCommitted.besidesLog = server.besidesLog := by
  unfold Server.applyCommitted
  split
  · exact applyPendingLoop_besidesLog _ _ server
  · rfl

theorem collectGarbage_besidesLog :
    server.collectGarbage.besidesLog = server.besidesLog := by
  unfold Server.collectGarbage
  split
  · rw [trimLogLocked_besidesLog]
    exact freeSlots_besidesLog server _
  · rfl

/-- The ground is outside the log. -/
theorem ground_of_besidesLog
    {first second : Server}
    (same : first.besidesLog = second.besidesLog) :
    first.ground = second.ground := by
  show first.besidesLog.ground = second.besidesLog.ground
  rw [same]

end

section

variable (server : Server)

/-- Changes of one member keep the ground. -/
theorem mapMember_ground
    {index : Nat}
    {change : ClusterMember → ClusterMember}
    (sameId : ∀ member, (change member).id = member.id) :
    (server.mapMember index change).ground =
      server.ground := by
  have sameIds :
      (server.raft.cluster.modify index change).map ClusterMember.id =
        server.raft.cluster.map ClusterMember.id :=
    map_modify_same _ _ sameId
  simp only [Server.mapMember, Server.mapRaft, Server.ground,
    Server.configuration, sameIds]

theorem setVotedFor_ground
    (vote : Nat) :
    (server.setVotedFor vote).ground = server.ground :=
  mapMember_ground server fun _ => rfl

theorem startElection_ground :
    server.startElection.ground = server.ground := by
  have sameIds :
      (server.raft.cluster.mapIdx fun index member =>
        { member with
          votedFor :=
            if index = server.raft.clusterIndex then
              server.raft.id
            else
              0 }).map ClusterMember.id =
        server.raft.cluster.map ClusterMember.id :=
    map_mapIdx_same _ fun _ _ => rfl
  simp only [Server.startElection, Server.mapRaft, Server.ground,
    Server.configuration, sameIds]

theorem resetProgress_ground :
    server.resetProgress.ground = server.ground := by
  simp [Server.resetProgress, Server.mapRaft, Server.ground,
    Server.configuration]

theorem demote_ground
    (msgTerm : Nat) :
    (server.demote msgTerm).ground = server.ground :=
  setVotedFor_ground _ 0

theorem recordVote_ground
    (peerIndex : Nat) :
    (server.recordVote peerIndex).ground = server.ground :=
  mapMember_ground server fun _ => rfl

theorem clampNext_ground
    (fi : Nat) :
    (server.clampNext fi).ground = server.ground :=
  mapMember_ground server fun _ => rfl

theorem setInflight_ground
    (fi : Nat)
    (inflight : Bool) :
    (server.setInflight fi inflight).ground = server.ground :=
  mapMember_ground server fun _ => rfl

theorem bookAnswer_ground
    (fi : Nat)
    (call : AppendCall)
    (answer : Option AppendEntriesResponse) :
    (server.bookAnswer fi call answer).ground = server.ground := by
  unfold Server.bookAnswer
  generalize landed :
    (if call.hasEntries then server.setInflight fi false else server) = booked
  have same : booked.ground = server.ground := by
    rw [← landed]
    split
    · exact setInflight_ground server fi false
    · rfl
  cases answer with
  | none =>
      exact same
  | some rsp =>
      dsimp only
      split_ifs
      · exact same
      · exact same
      · refine (mapMember_ground booked fun member => ?_).trans same
        rfl
      · refine (mapMember_ground booked fun member => ?_).trans same
        split <;> rfl

end

/--
A view of the server that the changes of the elections, the RPC handlers, the
commit index and the state machine leave alone.
-/
structure Undisturbed
    {γ : Type}
    (view : Server → γ) : Prop where
  header : Frames view (persistCircular false 0)
  demote : ∀ server msgTerm, view (Server.demote server msgTerm) = view server
  startElection : ∀ server, view (Server.startElection server) = view server
  setVotedFor :
    ∀ server vote, view (Server.setVotedFor server vote) = view server
  recordVote :
    ∀ server peerIndex,
      view (Server.recordVote server peerIndex) = view server
  stepDown : ∀ server req, view (Server.stepDown server req) = view server
  tailSlot :
    ∀ (server : Server) tailSlot,
      view { server with ring := { server.ring with tailSlot } } =
        view server
  buildLog :
    ∀ server req newTail skipEntries,
      view (Server.buildLog server req newTail skipEntries) = view server
  followCommit :
    ∀ server leaderCommit,
      view (Server.followCommit server leaderCommit) = view server
  commitTo :
    ∀ server majorityIdx,
      view (Server.commitTo server majorityIdx) = view server
  applyCommitted : ∀ server, view (Server.applyCommitted server) = view server

/--
A view that the append workers leave alone as well: only winning an election,
client commands and garbage collection may change it.
-/
structure Unaffected
    {γ : Type}
    (view : Server → γ) : Prop extends Undisturbed view where
  clampNext : ∀ server fi, view (Server.clampNext server fi) = view server
  setInflight :
    ∀ server fi inflight,
      view (Server.setInflight server fi inflight) = view server
  bookAnswer :
    ∀ server fi call answer,
      view (Server.bookAnswer server fi call answer) = view server

section

variable {γ : Type} {view : Server → γ}

theorem getPba_frames
    (logical length : Nat) :
    Frames view (getPba logical length) := by
  refine Frames.bind Frames.get fun server => ?_
  split
  · exact Frames.pure _
  · exact Frames.throw _

theorem leaderPbaForRange_frames
    (startSlot totalSlots : Nat) :
    Frames view (leaderPbaForRange startSlot totalSlots) := by
  refine Frames.ite (Frames.pure _) (Frames.bind (getPba_frames _ _) ?_)
  intro segment
  exact Frames.ite (Frames.throw _)
    (Frames.ite (Frames.pure _) (Frames.pure _))

theorem planRound_frames
    (next lenEntries : Nat) :
    Frames view (planRound next lenEntries) := by
  refine Frames.bind Frames.get fun server => Frames.ite (Frames.pure _) ?_
  split
  · exact Frames.pure _
  · refine Frames.ite (Frames.pure _) ?_
    exact Frames.bind (leaderPbaForRange_frames _ _) fun _ => Frames.pure _

variable (undisturbed : Undisturbed view)

include undisturbed

theorem updateTerm_frames
    (msgTerm : Nat) :
    Frames view (updateTerm msgTerm) := by
  refine Frames.bind Frames.get fun server => Frames.ite ?_ (Frames.pure _)
  exact Frames.bind
    (Frames.modifyState fun server => undisturbed.demote server msgTerm)
    fun _ => Frames.bind undisturbed.header fun _ => Frames.pure _

/-- A timeout leaves the view alone. -/
theorem timeout_frames
    (expired : Bool) :
    Frames view (timeout expired) :=
  Frames.ite
    (Frames.bind (Frames.modifyState undisturbed.startElection) fun _ =>
      Frames.bind undisturbed.header fun _ => Frames.pure _)
    (Frames.pure _)

theorem requestVoteReply_frames
    (peerIndex : Nat)
    (req : RequestVoteRequest)
    (rsp : RequestVoteResponse) :
    Frames view (requestVoteReply peerIndex req rsp) := by
  refine Frames.bind (updateTerm_frames undisturbed _) fun bumped =>
    Frames.ite (Frames.pure _) (Frames.ite (Frames.pure _) (Frames.ite ?_ ?_))
  · exact Frames.modifyState fun server =>
      undisturbed.recordVote server peerIndex
  · exact Frames.pure _

/-- A vote request leaves the view alone. -/
theorem handleRequestVoteRequest_frames
    (req : RequestVoteRequest) :
    Frames view (handleRequestVoteRequest req) := by
  refine Frames.bind (updateTerm_frames undisturbed _).discard fun _ =>
    Frames.bind Frames.get fun server =>
      Frames.ite (Frames.pure _) (Frames.ite ?_ (Frames.pure _))
  exact Frames.bind
    (Frames.modifyState fun server => undisturbed.setVotedFor server _)
    fun _ => Frames.bind undisturbed.header fun _ => Frames.pure _

theorem finishAppend_frames
    (req : AppendEntriesRequest)
    (rspTerm : Nat) :
    Frames view (finishAppend req rspTerm) :=
  Frames.bind
    (Frames.modifyState fun server => undisturbed.followCommit server _)
    fun _ => Frames.bind undisturbed.header fun _ => Frames.pure _

theorem completeAppend_frames
    (pending : PendingAppend) :
    Frames view (completeAppend pending) :=
  Frames.bind
    (Frames.modifyState fun server => undisturbed.buildLog server _ _ _)
    fun _ => finishAppend_frames undisturbed _ _

theorem acceptAppend_frames
    (req : AppendEntriesRequest) :
    Frames view (acceptAppend req) := by
  have finished := finishAppend_frames undisturbed req
  refine Frames.bind Frames.get fun server => Frames.ite ?_ (Frames.ite ?_ ?_)
  · exact Frames.bind (finished _) fun _ => Frames.pure _
  · refine Frames.bind
      (Frames.modifyState fun server => undisturbed.tailSlot server _)
      fun _ => Frames.ite ?_ (Frames.pure _)
    exact Frames.bind (completeAppend_frames undisturbed _) fun _ =>
      Frames.pure _
  · exact Frames.bind (finished _) fun _ => Frames.pure _

/-- An append request leaves the view alone. -/
theorem handleAppendEntriesRequest_frames
    (req : AppendEntriesRequest) :
    Frames view (handleAppendEntriesRequest req) := by
  refine Frames.bind (updateTerm_frames undisturbed _).discard fun _ =>
    Frames.bind
      (Frames.modifyState fun server => undisturbed.stepDown server req)
      fun _ => Frames.bind Frames.get fun server =>
        Frames.ite (Frames.pure _) ?_
  split
  · exact Frames.pure _
  · exact acceptAppend_frames undisturbed req

/-- What follows the copy leaves the view alone. -/
theorem handleAppendEntriesFinish_frames
    (pending : PendingAppend)
    (copied : Bool) :
    Frames view (handleAppendEntriesFinish pending copied) :=
  Frames.ite (completeAppend_frames undisturbed pending) (Frames.pure _)

theorem advanceCommitIndex_frames :
    Frames view advanceCommitIndex :=
  Frames.bind Frames.get fun _ =>
    Frames.ite
      (Frames.modifyState fun server => undisturbed.commitTo server _)
      (Frames.pure _)

theorem applyPending_frames :
    Frames view applyPending :=
  Frames.modifyState undisturbed.applyCommitted

omit undisturbed

variable (unaffected : Unaffected view)

include unaffected

theorem appendEntriesSend_frames
    (fi : Nat) :
    Frames view (appendEntriesSend fi) := by
  refine Frames.bind
    (Frames.modifyState fun server => unaffected.clampNext server fi)
    fun _ => Frames.bind Frames.get fun server =>
      Frames.ite (Frames.pure _) ?_
  refine Frames.bind (planRound_frames _ _) fun plan => Frames.ite ?_ ?_
  · exact Frames.bind
      (Frames.modifyState fun server => unaffected.setInflight server fi true)
      fun _ => Frames.pure _
  · exact Frames.pure _

theorem appendEntriesReply_frames
    (fi : Nat)
    (call : AppendCall)
    (answer : Option AppendEntriesResponse) :
    Frames view (appendEntriesReply fi call answer) :=
  Frames.modifyState fun server => unaffected.bookAnswer server fi call answer

end

/-- A change that keeps the ground keeps the configuration. -/
theorem modify_configuration
    {change : Server → Server}
    (kept : ∀ server, (change server).ground = server.ground) :
    Frames Server.configuration (modify change : Section Unit) :=
  Frames.modifyState fun server => congrArg Ground.configuration (kept server)

theorem persistCircular_configuration
    (writeLog : Bool)
    (nNewEntries : Nat) :
    Frames Server.configuration (persistCircular writeLog nNewEntries) :=
  (persistCircular_frames writeLog nNewEntries).coarsen
    Server.configuration fun _ => rfl

theorem configuration_unaffected :
    Unaffected Server.configuration where
  header := persistCircular_configuration false 0
  demote server msgTerm :=
    congrArg Ground.configuration (demote_ground server msgTerm)
  startElection server :=
    congrArg Ground.configuration (startElection_ground server)
  setVotedFor server vote :=
    congrArg Ground.configuration (setVotedFor_ground server vote)
  recordVote server peerIndex :=
    congrArg Ground.configuration (recordVote_ground server peerIndex)
  stepDown server req :=
    congrArg Ground.configuration (ground_of_besidesLog (stepDown_besidesLog server req))
  tailSlot _ _ := rfl
  buildLog server req newTail skipEntries :=
    congrArg Ground.configuration
      (ground_of_besidesLog
        (buildLog_besidesLog server req newTail skipEntries))
  followCommit _ _ := rfl
  clampNext server fi :=
    congrArg Ground.configuration (clampNext_ground server fi)
  setInflight server fi inflight :=
    congrArg Ground.configuration (setInflight_ground server fi inflight)
  bookAnswer server fi call answer :=
    congrArg Ground.configuration (bookAnswer_ground server fi call answer)
  commitTo server majorityIdx :=
    congrArg Ground.configuration (ground_of_besidesLog (commitTo_besidesLog server majorityIdx))
  applyCommitted server :=
    congrArg Ground.configuration (ground_of_besidesLog (applyCommitted_besidesLog server))

/-- A promotion keeps the configuration. -/
theorem becomeLeader_configuration
    (load : Nat → Option (List UInt8)) :
    Frames Server.configuration (becomeLeader load) := by
  refine Frames.bind Frames.get fun server => Frames.ite ?_ (Frames.pure _)
  exact Frames.bind
    (modify_configuration fun server =>
      ground_of_besidesLog (promote_besidesLog server load))
    fun _ =>
      Frames.bind (persistCircular_configuration _ _) fun _ =>
        modify_configuration resetProgress_ground

/-- A client call keeps the configuration. -/
theorem applyCommands_configuration
    (sink : Nat)
    (commands : List (List UInt8)) :
    Frames Server.configuration (applyCommands sink commands) := by
  refine Frames.bind Frames.get fun server =>
    Frames.ite (Frames.pure _) (Frames.ite (Frames.pure _)
      (Frames.ite (Frames.pure _) ?_))
  refine Frames.bind
    (modify_configuration fun server =>
      ground_of_besidesLog (appendCommands_besidesLog sink commands server))
    fun _ => Frames.tryCatch ?_ fun exn => ?_
  · exact Frames.bind (persistCircular_configuration _ _) fun _ =>
      Frames.pure _
  · exact Frames.bind
      (modify_configuration fun server =>
        ground_of_besidesLog (popEntries_besidesLog _ server))
      fun _ => Frames.pure _

/-- Garbage collection keeps the configuration. -/
theorem doSlotGc_configuration :
    Frames Server.configuration doSlotGc :=
  modify_configuration fun server =>
    ground_of_besidesLog (collectGarbage_besidesLog server)

end NvmeofRaft
