import NvmeofRaft.Durable
import NvmeofRaft.LogEffect

namespace NvmeofRaft

/-!
# Durable before acknowledged

The header invariant over whole runs of a node, under any pattern of failing
writes and syncs.  Only a failed sync whose exception is caught can break it:
the vote handler's caller and `apply_internal` go on after an exception, every
other section takes the process down with it.
-/

/-- A sound header stays sound over a calm change followed by a persist. -/
theorem keepsSound_calm
    {before after : Server}
    {writeLog : Bool}
    {nNewEntries : Nat}
    (sound : before.headerView.Sound)
    (calm : after.headerView = before.headerView) :
    wp (persistCircular writeLog nNewEntries)
      (fun _ final =>
        final.headerView.Sound ∧
          (before.headerView.SyncsSucceed → final.headerView.SyncsSucceed))
      (fun _ final =>
        final.headerView.AllDurable ∧
          (before.headerView.SyncsSucceed → final.headerView.Sound))
      after := by
  rw [← calm] at sound ⊢
  exact keepsSound_persist sound rfl (Or.inr ⟨rfl, Or.inl rfl⟩)

/-- Chain a section behind one that kept the header sound. -/
theorem KeepsSound.andThen
    {α β : Type}
    {action : Section α}
    {continuation : α → Section β}
    {server : Server}
    (first : KeepsSound action server)
    (later :
      ∀ value middle,
        middle.headerView.Sound → KeepsSound (continuation value) middle) :
    KeepsSound (action >>= continuation) server := by
  rw [KeepsSound, wp_bind]
  refine wp_mono first ?_ fun _ _ kept => kept
  rintro value middle ⟨middleSound, syncs⟩
  refine wp_mono (later value middle middleSound) ?_ ?_
  · exact fun _ _ kept => ⟨kept.1, fun succeed => kept.2 (syncs succeed)⟩
  · exact fun _ _ kept => ⟨kept.1, fun succeed => kept.2 (syncs succeed)⟩

/-- A section that does not change the header view keeps it sound. -/
theorem KeepsSound.of_frames
    {α : Type}
    {action : Section α}
    {server : Server}
    (sound : server.headerView.Sound)
    (frames : Frames Server.headerView action) :
    KeepsSound action server := by
  refine wp_mono (frames.ends server) ?_ ?_
  · intro _ final same
    rw [same]
    exact ⟨sound, id⟩
  · intro _ final same
    rw [same]
    exact ⟨sound.durable, fun _ => sound⟩

section

variable (server : Server)

/-- A promotion writes nothing before its first entry. -/
theorem promote_calm
    (load : Nat → Option (List UInt8)) :
    (server.promote load).headerView = server.headerView := by
  obtain ⟨applied, -, viewed⟩ := promote_view server load
  refine headerView_of_calm (ground_of_besidesLog
    (promote_besidesLog server load)) ?_ ?_
  · rw [viewed]
    rfl
  · rw [viewed]
    rfl

theorem resetProgress_calm :
    server.resetProgress.headerView = server.headerView := by
  refine headerView_of_calm (resetProgress_ground server) ?_ ?_
  · rfl
  · rw [resetProgress_view]
    rfl

/-- The log in memory is not the header. -/
theorem buildLog_calm
    (req : AppendEntriesRequest)
    (newTail skipEntries : Nat) :
    (server.buildLog req newTail skipEntries).headerView =
      server.headerView := by
  have viewed := buildLog_view server req newTail skipEntries
  refine headerView_of_calm (ground_of_besidesLog
    (buildLog_besidesLog server _ _ _)) ?_ ?_
  · rw [viewed, View.build]
    split <;> rfl
  · rw [viewed, View.build]
    split <;> rfl

theorem stepDown_calm
    (req : AppendEntriesRequest) :
    (server.stepDown req).headerView = server.headerView := by
  refine headerView_of_calm (ground_of_besidesLog
    (stepDown_besidesLog server req)) ?_ ?_
  · rw [stepDown_view, View.stepDown]
    split <;> rfl
  · rw [stepDown_view, View.stepDown]
    split <;> rfl

theorem clampNext_calm
    (fi : Nat) :
    (server.clampNext fi).headerView = server.headerView := by
  refine headerView_of_calm (clampNext_ground server fi) rfl ?_
  rw [clampNext_view]
  rfl

theorem setInflight_calm
    (fi : Nat)
    (inflight : Bool) :
    (server.setInflight fi inflight).headerView = server.headerView := by
  refine headerView_of_calm (setInflight_ground server fi inflight) rfl ?_
  rw [setInflight_view]

theorem bookAnswer_calm
    (fi : Nat)
    (call : AppendCall)
    (answer : Option AppendEntriesResponse) :
    (server.bookAnswer fi call answer).headerView = server.headerView := by
  have booked := appendEntriesReply_spec fi call answer server
  simp only [appendEntriesReply, wp_modify] at booked
  refine headerView_of_calm (bookAnswer_ground server fi call answer) ?_ ?_
  · generalize (server.bookAnswer fi call answer).view = view at booked ⊢
    cases booked <;> rfl
  · generalize (server.bookAnswer fi call answer).view = view at booked ⊢
    cases booked <;> rfl

theorem commitTo_calm
    (majorityIdx : Nat) :
    (server.commitTo majorityIdx).headerView = server.headerView := by
  refine headerView_of_calm (ground_of_besidesLog
    (commitTo_besidesLog server majorityIdx)) ?_ ?_
  · rw [Server.commitTo, signalCommittedFrom_view]
    rfl
  · rw [Server.commitTo, signalCommittedFrom_view]
    rfl

theorem applyCommitted_calm :
    server.applyCommitted.headerView = server.headerView := by
  obtain ⟨applied, -, viewed⟩ := applyPending_spec server
  have viewed' : server.applyCommitted.view = { server.view with applied } :=
    viewed
  refine headerView_of_calm (ground_of_besidesLog
    (applyCommitted_besidesLog server)) ?_ ?_
  · rw [viewed']
  · rw [viewed']
    rfl

/-- Garbage collection writes nothing. -/
theorem collectGarbage_calm :
    server.collectGarbage.headerView = server.headerView := by
  obtain ⟨removed, -, viewed⟩ := doSlotGc_spec server
  have viewed' : server.collectGarbage.view = server.view.trim removed :=
    viewed
  refine headerView_of_calm (ground_of_besidesLog
    (collectGarbage_besidesLog server)) ?_ ?_
  · rw [viewed']
    rfl
  · rw [viewed']
    rfl

theorem popEntries_calm :
    ∀ count (server : Server),
      (server.popEntries count).headerView = server.headerView := by
  intro count
  induction count with
  | zero =>
      intro server
      rfl
  | succ count inductionHypothesis =>
      intro server
      unfold Server.popEntries
      split
      · rw [inductionHypothesis]
        rfl
      · rfl

end

/-- Finishing an append leaves a sound header. -/
theorem finishAppend_sound
    (req : AppendEntriesRequest)
    (rspTerm : Nat)
    {server : Server}
    (sound : server.headerView.Sound) :
    KeepsSound (finishAppend req rspTerm) server := by
  simp only [KeepsSound, finishAppend, wp_bind, wp_modify, wp_pure]
  exact keepsSound_calm sound rfl

theorem completeAppend_sound
    (pending : PendingAppend)
    {server : Server}
    (sound : server.headerView.Sound) :
    KeepsSound (completeAppend pending) server := by
  have built := buildLog_calm server pending.req pending.newTail
    pending.skipEntries
  rw [← built] at sound
  have finished := finishAppend_sound pending.req pending.rspTerm sound
  rw [KeepsSound, built] at finished
  simp only [KeepsSound, completeAppend, wp_bind, wp_modify]
  exact finished

theorem acceptAppend_sound
    (req : AppendEntriesRequest)
    {server : Server}
    (sound : server.headerView.Sound) :
    KeepsSound (acceptAppend req) server := by
  simp only [KeepsSound, acceptAppend, modifyRing, wp_bind, wp_get, wp_ite,
    wp_modify, wp_pure]
  split_ifs
  · exact finishAppend_sound req _ sound
  · exact completeAppend_sound _ sound
  · exact ⟨sound, id⟩
  · exact finishAppend_sound req _ sound

/-- An append request leaves a sound header. -/
theorem handleAppendEntriesRequest_sound
    (req : AppendEntriesRequest)
    {server : Server}
    (sound : server.headerView.Sound) :
    KeepsSound (handleAppendEntriesRequest req) server := by
  unfold handleAppendEntriesRequest
  refine KeepsSound.andThen ?_ ?_
  · rw [KeepsSound, wp_discard]
    exact updateTerm_sound req.term sound
  · intro _ middle middleSound
    have down := stepDown_calm middle req
    simp only [KeepsSound, wp_bind, wp_modify, wp_get, wp_ite, wp_pure]
    split
    · rw [down]
      exact ⟨middleSound, id⟩
    · split
      · simp only [wp_pure]
        rw [down]
        exact ⟨middleSound, id⟩
      · rw [← down] at middleSound ⊢
        exact acceptAppend_sound req middleSound

theorem handleAppendEntriesFinish_sound
    (pending : PendingAppend)
    (copied : Bool)
    {server : Server}
    (sound : server.headerView.Sound) :
    KeepsSound (handleAppendEntriesFinish pending copied) server := by
  cases copied with
  | false =>
      exact ⟨sound, id⟩
  | true =>
      exact completeAppend_sound pending sound

/-- A promotion leaves a sound header. -/
theorem becomeLeader_sound
    (load : Nat → Option (List UInt8))
    {server : Server}
    (sound : server.headerView.Sound) :
    KeepsSound (becomeLeader load) server := by
  simp only [KeepsSound, becomeLeader, wp_bind, wp_get, wp_ite, wp_modify,
    wp_pure, resetProgress_calm]
  split
  · exact keepsSound_calm sound (promote_calm server load)
  · exact ⟨sound, id⟩

/-- A vote reply leaves a sound header. -/
theorem requestVoteReply_sound
    {peerIndex : Nat}
    (req : RequestVoteRequest)
    (rsp : RequestVoteResponse)
    {server : Server}
    (sound : server.headerView.Sound)
    (other : peerIndex ≠ server.view.index) :
    KeepsSound (requestVoteReply peerIndex req rsp) server := by
  simp only [KeepsSound, requestVoteReply, wp_bind]
  refine wp_mono
    (wp_and (updateTerm_sound rsp.term sound)
      (updateTerm_spec rsp.term server)) ?_ fun _ _ kept => kept.1
  rintro bumped middle ⟨⟨middleSound, syncs⟩, -, viewed⟩
  have sameIndex : middle.view.index = server.view.index := by
    rw [viewed, View.bump]
    split <;> rfl
  rw [← sameIndex] at other
  have recorded :
      (middle.recordVote peerIndex).headerView = middle.headerView := by
    refine headerView_of_calm (recordVote_ground middle peerIndex) rfl ?_
    rw [recordVote_view]
    exact View.vote_record other
  simp only [wp_ite, wp_pure, wp_modify, recorded]
  split_ifs <;> exact ⟨middleSound, syncs⟩

theorem appendEntriesSend_header
    (fi : Nat) :
    Frames Server.headerView (appendEntriesSend fi) := by
  refine Frames.bind
    (Frames.modifyState fun server => clampNext_calm server fi)
    fun _ => Frames.bind Frames.get fun server =>
      Frames.ite (Frames.pure _) ?_
  refine Frames.bind (planRound_frames _ _) fun plan => Frames.ite ?_ ?_
  · exact Frames.bind
      (Frames.modifyState fun server => setInflight_calm server fi true)
      fun _ => Frames.pure _
  · exact Frames.pure _

theorem advanceCommitIndex_header :
    Frames Server.headerView advanceCommitIndex :=
  Frames.bind Frames.get fun _ =>
    Frames.ite
      (Frames.modifyState fun server => commitTo_calm server _)
      (Frames.pure _)

/--
Client commands never end by an exception.  The header stays sound unless the
call has a header to write and its sync fails.
-/
theorem applyCommands_sound
    (sink : Nat)
    (commands : List (List UInt8))
    {server : Server}
    (sound : server.headerView.Sound)
    (safe : server.headerView.SyncsSucceed ∨ server.headerView.Cached) :
    wp (applyCommands sink commands)
      (fun _ final => final.headerView.Sound)
      (fun _ _ => False) server := by
  have appended :
      (server.appendCommands sink commands).headerView =
        server.headerView := by
    have viewed := appendCommands_view sink commands server
    refine headerView_of_calm (ground_of_besidesLog
    (appendCommands_besidesLog sink commands server))
      ?_ ?_
    · rw [viewed]
      rfl
    · rw [viewed]
      rfl
  simp only [applyCommands, wp_bind, wp_get, wp_ite, wp_pure, wp_modify,
    wp_tryCatch, popEntries_calm]
  split_ifs
  · exact sound
  · exact sound
  · exact sound
  · rw [← appended] at sound safe
    refine wp_mono (persistCircular_header true commands.length sound) ?_ ?_
    · exact fun _ _ kept => kept.2.1
    · exact fun _ _ kept => kept.2.2 safe

/--
The fault condition: no sync of a vote handler fails, and the sync of a client
command fails only when the call has no header to write.
-/
def syncKept
    (proc : Process)
    (input : Input) :
    Bool :=
  match input.act with
  | .handleVote _ _ => input.outcomes.syncs.all id
  | .apply _ _ => input.outcomes.syncs.all id || !needsHeader proc.server
  | _ => true

/-- Vote threads concern other members. -/
def Thread.ConcernsPeer
    (index : Nat) :
    Thread → Prop
  | .voteWorker peerIndex => peerIndex ≠ index
  | .voteCall peerIndex _ => peerIndex ≠ index
  | _ => True

/-- The coming outcomes are all that `withOutcomes` replaces. -/
theorem withOutcomes_headerView
    (server : Server)
    (outcomes : IoOutcomes) :
    (server.withOutcomes outcomes).headerView =
      { server.headerView with syncs := outcomes.syncs } :=
  rfl

theorem withOutcomes_sound
    {server : Server}
    (outcomes : IoOutcomes)
    (sound : server.headerView.Sound) :
    (server.withOutcomes outcomes).headerView.Sound :=
  ⟨sound.onFile, sound.onStable, sound.behind, sound.durable⟩

/-- What is known after the body of an act other than a vote handler. -/
theorem KeepsSound.ends
    {α : Type}
    {action : Section α}
    {server : Server}
    (kept : KeepsSound action server) :
    wp action (fun _ final => final.headerView.Sound)
      (fun _ final => final.headerView.AllDurable) server :=
  wp_mono kept (fun _ _ holds => holds.1) fun _ _ holds => holds.1

/-- The body of a thread keeps a sound header. -/
theorem threadBody_sound
    {thread : Thread}
    (act : Act)
    {server : Server}
    (sound : server.headerView.Sound)
    (other : thread.ConcernsPeer server.view.index) :
    wp (thread.body act) (fun _ final => final.headerView.Sound)
      (fun _ final => final.headerView.AllDurable) server := by
  have answered :
      ∀ fi call answer,
        KeepsSound (appendEntriesReply fi call answer) server :=
    fun fi call answer => KeepsSound.of_frames sound
      (Frames.modifyState fun server => bookAnswer_calm server fi call answer)
  unfold Thread.body
  split
  · exact sound
  · exact (requestVoteReply_sound _ _ sound other).ends
  · exact (KeepsSound.of_frames sound
      (appendEntriesSend_header _).discard).ends
  · exact (answered _ _ _).ends
  · exact (answered _ _ _).ends
  · exact (answered _ _ _).ends
  · rw [wp_discard]
    exact (handleAppendEntriesFinish_sound _ _ sound).ends
  · exact sound

/-- The section of `main_loop` keeps a sound header. -/
theorem mainBody_sound
    (main : MainPc)
    (expired : Bool)
    (load : Nat → Option (List UInt8))
    {server : Server}
    (sound : server.headerView.Sound) :
    wp (main.body expired load) (fun _ final => final.headerView.Sound)
      (fun _ final => final.headerView.AllDurable) server := by
  unfold MainPc.body
  split
  · exact (KeepsSound.of_frames sound advanceCommitIndex_header).ends
  · rw [wp_discard]
    exact (timeout_sound expired sound).ends
  · exact (becomeLeader_sound load sound).ends
  · exact sound

/-- What the body of an act does to a sound header. -/
theorem body_sound
    {proc : Process}
    {input : Input}
    (sound : proc.server.headerView.Sound)
    (peers :
      ∀ thread, thread ∈ proc.threads →
        thread.ConcernsPeer proc.server.view.index)
    (kept : syncKept proc input = true) :
    proc.BodySpec input.outcomes input.act
      (fun final => final.headerView.Sound)
      (fun final =>
        final.headerView.AllDurable ∧
          ((∃ src req, input.act = .handleVote src req) →
            final.headerView.Sound)) := by
  have started := withOutcomes_sound input.outcomes sound
  have weaken :
      ∀ {body : Section Unit},
        (¬ ∃ src req, input.act = .handleVote src req) →
        wp body (fun _ final => final.headerView.Sound)
          (fun _ final => final.headerView.AllDurable)
          (proc.server.withOutcomes input.outcomes) →
        wp body (fun _ final => final.headerView.Sound)
          (fun _ final => final.headerView.AllDurable ∧
            ((∃ src req, input.act = .handleVote src req) →
              final.headerView.Sound))
          (proc.server.withOutcomes input.outcomes) :=
    fun notVote spec => wp_mono spec (fun _ _ holds => holds)
      fun _ _ holds => ⟨holds, fun vote => absurd vote notVote⟩
  unfold Process.BodySpec Process.body
  unfold syncKept at kept
  split
  · rename_i same
    exact weaken (by simp [same]) (mainBody_sound _ _ _ started)
  · rename_i src req same
    rw [wp_discard]
    refine wp_mono (handleRequestVoteRequest_sound req started)
      (fun _ _ holds => holds.1) fun _ _ holds =>
        ⟨holds.1, fun _ => holds.2 ?_⟩
    rw [same] at kept
    simpa [HeaderView.SyncsSucceed, withOutcomes_headerView] using kept
  · rename_i same
    refine weaken (by simp [same]) ?_
    rw [wp_discard]
    exact (handleAppendEntriesRequest_sound _ started).ends
  · rename_i sink commands same
    refine weaken (by simp [same]) ?_
    rw [same] at kept
    rw [wp_discard]
    refine wp_mono (applyCommands_sound sink commands started ?_)
      (fun _ _ holds => holds) fun _ _ impossible => impossible.elim
    simp only [Bool.or_eq_true, Bool.not_eq_true', List.all_eq_true,
      id_eq] at kept
    exact kept.imp id (needsHeader_eq_false_iff proc.server).mp
  · rename_i same
    refine weaken (by simp [same]) ?_
    exact (KeepsSound.of_frames started
      (Frames.modifyState applyCommitted_calm)).ends
  · rename_i same
    refine weaken (by simp [same]) ?_
    exact (KeepsSound.of_frames started
      (Frames.modifyState collectGarbage_calm)).ends
  · rename_i notVote _ _ _ _
    refine weaken (fun ⟨src, req, same⟩ => notVote src req same) ?_
    split
    · rename_i thread found
      obtain ⟨index, -, listed⟩ := Option.bind_eq_some_iff.mp found
      exact threadBody_sound _ started
        (peers thread (List.mem_of_getElem? listed))
    · exact started

theorem View.ne_of_mem_peers
    {view : View}
    {peerIndex : Nat}
    (peer : peerIndex ∈ view.peers) :
    peerIndex ≠ view.index := by
  simp only [View.peers, List.mem_filter, decide_eq_true_eq] at peer
  exact peer.2

/-- A step starts vote threads for other members only. -/
theorem concernsPeer_step
    {mapped : Nat → Prop}
    {node after : Node}
    {act : Act}
    {outputs : Outputs}
    (step : node.Step mapped act after outputs)
    (peers :
      ∀ thread, thread ∈ node.threads →
        thread.ConcernsPeer node.view.index) :
    ∀ thread, thread ∈ after.threads →
      thread.ConcernsPeer node.view.index := by
  intro thread held
  rcases step.thread_origin held with old | new
  · exact peers thread old
  · cases new with
    | voteWorker peer _ =>
        exact View.ne_of_mem_peers peer
    | @voteCall peerIndex _ worker =>
        exact peers (.voteWorker peerIndex) worker
    | _ =>
        exact trivial

/-- What every state of a run keeps of the header. -/
structure Process.HeaderKept (proc : Process) : Prop where
  wellformed : proc.Wellformed
  sound : proc.halted = false → proc.server.headerView.Sound
  durable : proc.server.headerView.AllDurable
  peers :
    ∀ thread, thread ∈ proc.threads →
      thread.ConcernsPeer proc.server.view.index

/-- A start leaves the noted returns as they were. -/
theorem initStorage_returns
    (kernel : KernelAnswers) :
    Frames (fun server : Server => server.io.persistReturns)
      (initStorage kernel) := by
  refine initStorage_frames (fun sizeBytes => ?_) (fun _ _ => rfl) ?_
    (fun _ => rfl) fun _ => rfl
  · refine Frames.ite (Frames.throw _)
      (Frames.bind Frames.get fun _ => Frames.ite ?_ ?_)
    · exact Frames.ite (Frames.throw _)
        (Frames.bind (Frames.modifyState fun _ => rfl) fun _ =>
          Frames.ite (Frames.throw _)
            (Frames.bind (Frames.modifyState fun _ => rfl) fun _ =>
              Frames.bind Frames.get fun _ => Frames.pure _))
    · exact Frames.ite (Frames.throw _)
        (Frames.bind (Frames.modifyState fun _ => rfl) fun _ =>
          Frames.bind Frames.get fun _ => Frames.pure _)
  · intro server header
    unfold Server.restoreHeader
    dsimp only
    split <;> rfl

/-- An empty cache is sound. -/
theorem sound_of_noCache
    {server : Server}
    (noCache : server.ring.persistedInit = false)
    (durable : server.headerView.AllDurable) :
    server.headerView.Sound := by
  have empty : server.headerView.cache = none := by
    simp [Server.headerView, noCache]
  have notCached : ¬ server.headerView.Cached := by
    simp [HeaderView.Cached, empty]
  refine ⟨fun cached => absurd cached notCached,
    fun cached => absurd cached notCached, ?_, durable⟩
  intro cached held
  rw [empty] at held
  cases held

/-- A start begins with a sound header. -/
theorem startUp_header
    {proc : Process}
    (outcomes : IoOutcomes)
    (kernel : KernelAnswers)
    (headerFits : headerSize ≤ proc.server.ring.fileSizeBytes)
    (durable : proc.server.headerView.AllDurable) :
    ((proc.startUp outcomes kernel).1.halted = false →
        (proc.startUp outcomes kernel).1.server.headerView.Sound) ∧
      (proc.startUp outcomes kernel).1.server.headerView.AllDurable := by
  let start := proc.server.constructed.withOutcomes outcomes
  have spec := wp_and
    (initStorage_spec kernel
      (show headerSize ≤ start.ring.fileSizeBytes from headerFits))
    ((initStorage_returns kernel).ends start)
  have kept :
      ∀ final : Server,
        final.io.persistReturns = start.io.persistReturns →
        final.headerView.AllDurable := by
    intro final returns returned member
    have listed : returned ∈ final.io.persistReturns := member
    rw [returns] at listed
    exact durable returned listed
  refine execOrHalt_wp
    (fun result =>
      (result.1.halted = false → result.1.server.headerView.Sound) ∧
        result.1.server.headerView.AllDurable) spec ?_ ?_
  · rintro _ final ⟨⟨-, -, cache⟩, returns⟩
    exact ⟨fun _ => sound_of_noCache (cache rfl) (kept final returns),
      kept final returns⟩
  · rintro _ final ⟨-, returns⟩
    exact ⟨Bool.noConfusion, kept final returns⟩

/-- Every allowed step keeps the header. -/
theorem headerKept_step
    {proc next : Process}
    {input : Input}
    (kept : proc.HeaderKept)
    (allowed : syncKept proc input = true)
    (advanced : proc.advance input = some next) :
    next.HeaderKept := by
  obtain ⟨result, stepped, rfl⟩ := Option.map_eq_some_iff.mp advanced
  have wellformed := Process.step_wellformed kept.wellformed stepped
  have does := Process.step_does kept.wellformed stepped
  have sameIndex : result.1.server.view.index = proc.server.view.index :=
    congrArg Configuration.clusterIndex (Process.step_configuration stepped)
  have peers := concernsPeer_step does kept.peers
  have peersKept :
      ∀ thread, thread ∈ result.1.threads →
        thread.ConcernsPeer result.1.server.view.index := by
    rw [sameIndex]
    exact peers
  by_cases restarts : ∃ kernel cacheLost, input.act = .restart kernel cacheLost
  · obtain ⟨kernel, cacheLost, same⟩ := restarts
    rw [same] at stepped
    simp only [Process.step, Option.some.injEq] at stepped
    have started :
        (result.1.halted = false → result.1.server.headerView.Sound) ∧
          result.1.server.headerView.AllDurable := by
      rw [← stepped]
      exact startUp_header input.outcomes kernel kept.wellformed.headerFits
        kept.durable
    exact ⟨wellformed, started.1, started.2, peersKept⟩
  · have noRestart :
        ∀ kernel cacheLost, input.act ≠ .restart kernel cacheLost :=
      fun kernel cacheLost same => restarts ⟨kernel, cacheLost, same⟩
    have running := Process.running_of_step stepped noRestart
    have sound := kept.sound running
    rcases Process.step_ends (body_sound sound kept.peers allowed) stepped
      noRestart with unchanged | returned | ⟨⟨durable, afterVote⟩, ended⟩
    · rw [← unchanged] at sound
      exact ⟨wellformed, fun _ => sound, sound.durable, peersKept⟩
    · exact ⟨wellformed, fun _ => returned, returned.durable, peersKept⟩
    · refine ⟨wellformed, fun goesOn => ?_, durable, peersKept⟩
      rcases ended with halted | vote
      · rw [halted] at goesOn
        cases goesOn
      · exact afterVote vote

/-- A booted node has a sound header. -/
theorem boot_headerKept
    {n : Nat}
    (members : Membership n)
    (settings : Fin n → Settings)
    (node : Fin n) :
    (members.boot settings node).HeaderKept := by
  have started := startUp_header
    {} { fiemap := some (settings node).extents }
    (show headerSize ≤
      ({ server := members.server settings node } :
        Process).server.ring.fileSizeBytes from
      server_headerFits members settings node)
    (fun _ member => by cases member)
  refine ⟨boot_wellformed members settings node, started.1, started.2, ?_⟩
  obtain ⟨halted, fresh⟩ := boot_node members settings node
  have none : (members.boot settings node).threads = [] :=
    congrArg Node.threads fresh
  rw [none]
  exact fun thread member => by cases member

/-- A vote that the input makes the node grant is on stable storage. -/
def Process.GrantsDurably
    (proc : Process)
    (input : Input) : Prop :=
  ∀ next src req rsp,
    input.act = .handleVote src req →
    proc.step input.outcomes input.act =
      some (next, [(src, .voteResponse req rsp)]) →
    rsp.voteGranted = true →
    next.server.io.stable.read 0 16 =
      headerBytes next.server.raft.currentTerm next.server.getVotedFor

/-- On a sound header a vote is granted only when it is stable. -/
theorem grantsDurably_of_sound
    {proc : Process}
    (sound : proc.halted = false → proc.server.headerView.Sound)
    (input : Input) :
    proc.GrantsDurably input := by
  intro next src req rsp same stepped granted
  have running := Process.running_of_step stepped (by simp [same])
  rw [same] at stepped
  simp only [Process.step, running, Bool.false_eq_true, if_false,
    Option.some.injEq] at stepped
  have started := withOutcomes_sound input.outcomes (sound running)
  have spec := handleRequestVoteRequest_granted req started
  revert granted
  have kept : ∀ answered rsp,
      (proc.stepHandleVote input.outcomes src req).2 =
        [(src, .voteResponse req rsp)] →
      rsp.voteGranted = true →
      (proc.stepHandleVote input.outcomes src req).1 = answered →
      answered.server.headerView.Sound ∧
        answered.server.headerView.Cached := by
    refine exec_wp
      (fun result => ∀ answered rsp,
        result.2 = [(src, .voteResponse req rsp)] →
        rsp.voteGranted = true → result.1 = answered →
        answered.server.headerView.Sound ∧
          answered.server.headerView.Cached) spec ?_ ?_
    · intro answer server holds answered rsp sent granted ended
      simp only [List.cons.injEq, Prod.mk.injEq, Payload.voteResponse.injEq,
        true_and, and_true] at sent
      subst sent
      rw [← ended]
      dsimp only
      rw [if_pos granted]
      exact holds granted
    · intro _ server _ answered rsp sent
      cases sent
  intro granted
  have ends := kept next rsp (congrArg Prod.snd stepped) granted
    (congrArg Prod.fst stepped)
  exact ends.1.onStable ends.2

/--
Durable before acknowledged: as long as no sync of a vote handler fails, and
the sync of a client command fails only when the call has no header to write,
every normal return of `persist_circular` and every granted vote finds term
and vote on stable storage, whatever other writes and syncs fail.
-/
theorem durable_before_acknowledged
    {n : Nat}
    {members : Membership n}
    {settings : Fin n → Settings}
    {node : Fin n}
    {inputs : List Input}
    {proc : Process}
    (run :
      runWhile syncKept Process.advance (members.boot settings node) inputs =
        some proc) :
    (∀ returned, returned ∈ proc.server.io.persistReturns →
        returned.Durable) ∧
      ∀ input, syncKept proc input = true → proc.GrantsDurably input := by
  have kept : proc.HeaderKept :=
    runWhile_invariant Process.HeaderKept
      (fun _ _ _ kept allowed advanced =>
        headerKept_step kept allowed advanced)
      (boot_headerKept members settings node) run
  exact ⟨kept.durable, fun input _ =>
    grantsDurably_of_sound kept.sound input⟩

/-- A vote request whose demotion and grant are both synced. -/
def syncedVote : Input where
  outcomes := { syncs := [true, true] }
  act := .handleVote 1 firstVoteRequest

/-- A command that a follower refuses, so that its failing sync is not reached. -/
def unsyncedCommand : Input where
  outcomes := { syncs := [false] }
  act := .apply 0 [[]]

/-- The condition admits a run that grants a vote and refuses a command. -/
theorem durable_after_synced_vote :
    ∃ proc,
      runWhile syncKept Process.advance firstNode
          [syncedVote, unsyncedCommand] = some proc ∧
        proc.server.termAndVote = (1, 2) ∧
          ∀ returned, returned ∈ proc.server.io.persistReturns →
            returned.Durable := by
  obtain ⟨proc, run, granted⟩ :
      ∃ proc,
        runWhile syncKept Process.advance firstNode
            [syncedVote, unsyncedCommand] = some proc ∧
          decide (proc.server.termAndVote = (1, 2)) = true :=
    runWhile_exists (by decide +kernel)
  exact ⟨proc, run, of_decide_eq_true granted,
    (durable_before_acknowledged run).1⟩

/-- Every return and every granted vote of every run is durable. -/
def DurableBeforeAcknowledged (start : Process) : Prop :=
  ∀ inputs proc,
    start.Reaches inputs proc →
    (∀ returned, returned ∈ proc.server.io.persistReturns →
        returned.Durable) ∧
      ∀ input, proc.GrantsDurably input

/--
The demotion of the vote handler is synced, the grant is not: the handler
throws, but the cache already holds the vote.  The heartbeat that follows
writes no header and returns.
-/
def unsyncedVote : List Input :=
  [{ outcomes := { syncs := [true, false] }
     act := .handleVote 1 firstVoteRequest },
   { act := .handleAppend 1 { zeroHeartbeat with term := 1 } }]

/-- A failed sync of a vote is never repeated. -/
theorem failed_vote_sync_not_durable :
    ¬ DurableBeforeAcknowledged firstNode := by
  intro durable
  obtain ⟨proc, reached, undurable⟩ :
      ∃ proc,
        firstNode.Reaches unsyncedVote proc ∧
          (proc.server.io.persistReturns.any fun returned =>
            !decide returned.Durable) = true :=
    runWhile_exists (by decide +kernel)
  obtain ⟨returned, member, failed⟩ := List.any_eq_true.mp undurable
  have kept := (durable unsyncedVote proc reached).1 returned member
  simp [kept] at failed

end NvmeofRaft
