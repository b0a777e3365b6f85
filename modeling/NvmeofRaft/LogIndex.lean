import Mathlib.Data.List.Infix
import NvmeofRaft.LogEffect

namespace NvmeofRaft

/-!
# Log indices

An absolute index is translated to a position of the in-memory vector through
`tail_log_index` and the length of the vector.  The append handler computes
both ends of its batch before it releases `mu` and sets the tail from them
afterwards, so the translation survives exactly when the tail has not moved
in between.
-/

/-- The representation invariant of the log. -/
structure View.Indexed (view : View) : Prop where
  sentinel : 0 < view.log.length
  covered : view.log.length ≤ view.tail
  committed : view.commit ≤ view.tail - 1

/-- The log has grown at its end and the tail with it. -/
def View.Grown (before after : View) : Prop :=
  ∃ added,
    after.log = before.log ++ added ∧
      after.tail = before.tail + added.length

/-- A log that stays has grown by nothing. -/
theorem View.SameLog.grown
    {before after : View}
    (same : before.SameLog after) :
    before.Grown after :=
  ⟨[], by rw [same.log, List.append_nil], same.tail⟩

theorem View.SameLog.trans_grown
    {before middle after : View}
    (same : before.SameLog middle)
    (grown : middle.Grown after) :
    before.Grown after := by
  obtain ⟨added, log, tail⟩ := grown
  exact ⟨added, by rw [log, same.log], by rw [tail, same.tail]⟩

/-- The oldest index of a covered log, without wrap-around. -/
theorem View.oldest_eq
    {view : View}
    (covered : view.log.length ≤ view.tail) :
    view.oldest = view.tail - (view.log.length - 1) :=
  sub64_of_le (by omega)

/-- A log that grows keeps its oldest index. -/
theorem View.Grown.oldest
    {before after : View}
    (grown : before.Grown after)
    (sentinel : 0 < before.log.length)
    (covered : before.log.length ≤ before.tail) :
    after.oldest = before.oldest := by
  obtain ⟨added, log, tail⟩ := grown
  have length : after.log.length = before.log.length + added.length := by
    rw [log, List.length_append]
  rw [View.oldest_eq covered, View.oldest_eq (by omega)]
  omega

/-- The batch of a pending handler reaches beyond what it skips. -/
def PendingAppend.Reaches (pending : PendingAppend) : Prop :=
  pending.skipEntries < pending.req.numEntries

/-- The tail is still where the handler found it. -/
def PendingAppend.Fits
    (pending : PendingAppend)
    (view : View) : Prop :=
  pending.req.entryMetas.length = pending.req.numEntries →
    view.tail = pending.newTail + pending.skipEntries

instance
    (pending : PendingAppend)
    (view : View) :
    Decidable (pending.Fits view) :=
  inferInstanceAs (Decidable (_ → _))

/-- A handler that finds the tail as it left it lets the log grow. -/
theorem View.build_grown
    {view : View}
    {pending : PendingAppend}
    (reaches : pending.Reaches)
    (fits : pending.Fits view) :
    view.Grown
      (view.build pending.req pending.newTail pending.skipEntries) := by
  unfold View.build
  split
  · rename_i whole
    refine ⟨_, rfl, ?_⟩
    have tail := fits whole
    have short : pending.skipEntries < pending.req.numEntries := reaches
    simp only [List.length_map, List.length_drop]
    omega
  · exact ⟨[], (List.append_nil _).symm, rfl⟩

theorem View.complete_grown
    {view : View}
    {pending : PendingAppend}
    (reaches : pending.Reaches)
    (fits : pending.Fits view) :
    view.Grown (view.complete pending) :=
  View.build_grown reaches fits

/-- A request that begins where the log allows fits. -/
theorem View.pending_fits
    {view : View}
    {req : AppendEntriesRequest}
    (started : 0 < view.tail)
    (accepts : view.Accepts req) :
    (view.pending req).Fits view := by
  intro _
  have prevOk := accepts.prevOk
  simp only [View.prevOk, Bool.or_eq_true, Bool.and_eq_true,
    decide_eq_true_eq] at prevOk
  simp only [View.pending]
  omega

/-- A handler that waits for the copy reaches behind the tail. -/
theorem View.pending_reaches
    {view : View}
    {req : AppendEntriesRequest}
    (brings : view.Extends req) :
    (view.pending req).Reaches :=
  brings.2.2

/-- Every handler between its sections has entries to append. -/
def Node.HandlersReach (node : Node) : Prop :=
  ∀ src pending,
    .appendHandler src pending ∈ node.threads → pending.Reaches

/-- Every step keeps this of the waiting handlers. -/
theorem Node.Step.handlersReach
    {mapped : Nat → Prop}
    {node after : Node}
    {act : Act}
    {outputs : Outputs}
    (step : node.Step mapped act after outputs)
    (reach : node.HandlersReach) :
    after.HandlersReach := by
  intro src pending held
  rcases step.thread_origin held with old | new
  · exact reach src pending old
  · cases new with
    | appendHandler _ brings _ =>
        exact View.pending_reaches brings

/--
The handler that finishes finds the tail where it left it when it released
`mu`.
-/
def Node.tailUnmoved
    (node : Node) :
    Act → Bool
  | .handleAppendFinish index true =>
      match node.threads[index]? with
      | some (.appendHandler _ pending) => decide (pending.Fits node.view)
      | _ => true
  | _ => true

theorem Node.fits_of_tailUnmoved
    {node : Node}
    {index src : Nat}
    {pending : PendingAppend}
    (unmoved : node.tailUnmoved (.handleAppendFinish index true) = true)
    (found : node.threads[index]? = some (.appendHandler src pending)) :
    pending.Fits node.view := by
  simp only [Node.tailUnmoved, found, decide_eq_true_eq] at unmoved
  exact unmoved

/-- Neither a restart nor the garbage collection. -/
def Act.keepsFront : Act → Bool
  | .slotGc => false
  | .restart _ _ => false
  | _ => true

/-- The log grows at its end. -/
theorem Node.Step.grown
    {mapped : Nat → Prop}
    {node after : Node}
    {act : Act}
    {outputs : Outputs}
    (step : node.Step mapped act after outputs)
    (started : 0 < node.view.tail)
    (reach : node.HandlersReach)
    (unmoved : node.tailUnmoved act = true)
    (keepsFront : act.keepsFront = true) :
    node.view.Grown after.view := by
  cases step.logEffect with
  | kept same =>
      exact same.grown
  | won _ _ log tail =>
      exact ⟨_, log, tail⟩
  | pushed _ viewed =>
      rw [viewed]
      exact ⟨_, rfl, by simp [View.pushMany]⟩
  | @completed src req _ accepts brings _ viewed =>
      have met := (node.view.revoted_meet req.term).sameLog
      rw [← met.tail] at started
      rw [viewed]
      exact met.trans_grown
        (View.complete_grown (View.pending_reaches brings)
          (View.pending_fits started accepts))
  | finished found viewed =>
      rw [viewed]
      exact View.complete_grown
        (reach _ _ (List.mem_of_getElem? found))
        (Node.fits_of_tailUnmoved unmoved found)
  | trimmed _ _ =>
      cases keepsFront
  | restarted _ =>
      cases keepsFront
  | restartThrew _ _ =>
      cases keepsFront

/-- The commit index stays, or moves forward inside the log. -/
def View.CommitForward (before after : View) : Prop :=
  after.commit = before.commit ∨
    before.commit < after.commit ∧ after.commit ≤ after.tail - 1

theorem View.Revoted.commitForward
    {before after : View}
    (revoted : before.Revoted after) :
    before.CommitForward after := by
  obtain ⟨_, _, _, rfl⟩ := revoted
  exact Or.inl rfl

/-- Following the leader's commit index moves it forward. -/
theorem View.followCommit_forward
    (view : View)
    (leaderCommit : Nat)
    (committed : view.commit ≤ view.tail - 1) :
    view.CommitForward (view.followCommit leaderCommit) := by
  unfold View.CommitForward View.followCommit
  dsimp only
  split <;> omega

theorem View.build_commit
    (view : View)
    (req : AppendEntriesRequest)
    (newTail skipEntries : Nat) :
    (view.build req newTail skipEntries).commit = view.commit := by
  unfold View.build
  split <;> rfl

/-- Taking up entries moves the commit index forward. -/
theorem View.complete_forward
    {view : View}
    {pending : PendingAppend}
    (committed : view.commit ≤ view.tail - 1)
    (reaches : pending.Reaches)
    (fits : pending.Fits view) :
    view.CommitForward (view.complete pending) := by
  obtain ⟨added, -, tail⟩ := View.build_grown reaches fits
  have same := view.build_commit pending.req pending.newTail
    pending.skipEntries
  have forward := View.followCommit_forward
    (view.build pending.req pending.newTail pending.skipEntries)
    pending.req.leaderCommit (by omega)
  unfold View.CommitForward at forward ⊢
  rw [same] at forward
  exact forward

theorem View.Handled.commitForward
    {view after : View}
    {req : AppendEntriesRequest}
    {result : Option AppendProgress}
    (handled : view.Handled req result after)
    (started : 0 < view.tail)
    (committed : view.commit ≤ view.tail - 1) :
    view.CommitForward after := by
  obtain ⟨term, role, votes, met⟩ := view.revoted_meet req.term
  have sameCommit : (view.meet req.term).commit = view.commit := by
    rw [met]
  have sameTail : (view.meet req.term).tail = view.tail := by
    rw [met]
  have trans :
      (view.meet req.term).CommitForward after →
        view.CommitForward after := by
    intro forward
    unfold View.CommitForward at forward ⊢
    rwa [sameCommit] at forward
  cases handled with
  | demotionThrew _ =>
      exact (view.revoted_bump req.term).commitForward
  | refused _ _ =>
      exact Or.inl sameCommit
  | followed _ _ _ =>
      exact trans (View.followCommit_forward _ _ (by omega))
  | copying _ _ _ =>
      exact Or.inl sameCommit
  | completed accepts brings _ _ =>
      exact trans (View.complete_forward (by omega)
        (View.pending_reaches brings)
        (View.pending_fits (by omega) accepts))

/-- No step but a restart moves the commit index back or out of the log. -/
theorem Node.Step.commitForward
    {mapped : Nat → Prop}
    {node after : Node}
    {act : Act}
    {outputs : Outputs}
    (step : node.Step mapped act after outputs)
    (indexed : node.view.Indexed)
    (reach : node.HandlersReach)
    (unmoved : node.tailUnmoved act = true)
    (noRestart : ∀ kernel cacheLost, act ≠ .restart kernel cacheLost) :
    node.view.CommitForward after.view := by
  have started : 0 < node.view.tail :=
    Nat.lt_of_lt_of_le indexed.sentinel indexed.covered
  cases step with
  | commitRaised _ can =>
      have inLog := can.inLog
      exact Or.inr ⟨can.ahead, by dsimp only; omega⟩
  | voteCounted _ =>
      exact (View.revoted_reply _ _ _).commitForward
  | voteCountThrew _ =>
      exact (View.revoted_reply _ _ _).commitForward
  | appendAnswered _ booked =>
      cases booked <;> exact Or.inl rfl
  | voteHandled =>
      exact (View.revoted_voted _).commitForward
  | voteHandlerThrew viewed =>
      rcases viewed with rfl | rfl
      · exact (View.revoted_bump _).commitForward
      · exact (View.revoted_voted _).commitForward
  | appendReplied handled =>
      exact handled.commitForward started indexed.committed
  | appendBegun handled =>
      exact handled.commitForward started indexed.committed
  | appendHandlerThrew handled =>
      exact handled.commitForward started indexed.committed
  | @appendFinished index src pending copied view found viewed =>
      rw [viewed]
      cases copied with
      | false =>
          exact Or.inl rfl
      | true =>
          exact View.complete_forward indexed.committed
            (reach _ _ (List.mem_of_getElem? found))
            (Node.fits_of_tailUnmoved unmoved found)
  | appendFinishThrew found =>
      exact View.complete_forward indexed.committed
        (reach _ _ (List.mem_of_getElem? found))
        (Node.fits_of_tailUnmoved unmoved found)
  | restarted =>
      exact absurd rfl (noRestart _ _)
  | restartThrew =>
      exact absurd rfl (noRestart _ _)
  | _ =>
      exact Or.inl rfl

theorem View.trim_oldest
    {view : View}
    {removed : Nat}
    (indexed : view.Indexed)
    (within : removed ≤ view.log.length - 1) :
    (view.trim removed).log.length = view.log.length - removed ∧
      (view.trim removed).oldest = view.oldest + removed := by
  have sentinel := indexed.sentinel
  have covered := indexed.covered
  have length : (view.trim removed).log.length =
      view.log.length - removed := by
    simp only [View.trim, List.length_append, List.length_take,
      List.length_drop]
    omega
  have tail : (view.trim removed).tail = view.tail := rfl
  refine ⟨length, ?_⟩
  rw [View.oldest_eq covered, View.oldest_eq (by omega), length, tail]
  omega

/-- Trimming keeps the indices of the log. -/
theorem View.indexed_trim
    {view : View}
    {removed : Nat}
    (indexed : view.Indexed)
    (trims : view.Trims removed) :
    (view.trim removed).Indexed := by
  have sentinel := indexed.sentinel
  have covered := indexed.covered
  have within : removed ≤ view.log.length - 1 := by
    rcases trims with none | some
    · omega
    · exact some.1
  have length := (View.trim_oldest indexed within).1
  refine ⟨by omega, ?_, indexed.committed⟩
  have tail : (view.trim removed).tail = view.tail := rfl
  omega

/-- Every step keeps the representation, as long as no tail has moved. -/
theorem Node.Step.indexed
    {mapped : Nat → Prop}
    {node after : Node}
    {act : Act}
    {outputs : Outputs}
    (step : node.Step mapped act after outputs)
    (indexed : node.view.Indexed)
    (reach : node.HandlersReach)
    (unmoved : node.tailUnmoved act = true)
    (noRestart : ∀ kernel cacheLost, act ≠ .restart kernel cacheLost) :
    after.view.Indexed := by
  have sentinel := indexed.sentinel
  have covered := indexed.covered
  by_cases keepsFront : act.keepsFront = true
  · obtain ⟨added, log, tail⟩ :=
      step.grown (Nat.lt_of_lt_of_le sentinel covered) reach unmoved
        keepsFront
    have forward := step.commitForward indexed reach unmoved noRestart
    have committed := indexed.committed
    have length : after.view.log.length =
        node.view.log.length + added.length := by
      rw [log, List.length_append]
    unfold View.CommitForward at forward
    exact ⟨by omega, by omega, by omega⟩
  · cases act with
    | slotGc =>
        cases step with
        | collected trims =>
            exact View.indexed_trim indexed trims
    | restart kernel cacheLost =>
        exact absurd rfl (noRestart kernel cacheLost)
    | _ =>
        exact absurd rfl keepsFront

/-- The handler's build loop appends entries. -/
theorem appendMetas_prefix
    (skipEntries : Nat) :
    ∀ (metas : List EntryMeta) (index : Nat) (server : Server),
      server.raft.log <+:
        (appendMetas skipEntries index metas server).raft.log := by
  intro metas
  induction metas with
  | nil =>
      intro index server
      exact List.prefix_refl _
  | cons entryMeta rest inductionHypothesis =>
      intro index server
      rw [appendMetas]
      refine List.IsPrefix.trans ?_ (inductionHypothesis _ _)
      unfold appendMeta
      dsimp only
      split
      · exact List.prefix_append _ _
      · exact List.prefix_refl _

/-- Persisting does not touch the in-memory log. -/
theorem persistCircular_log
    (writeLog : Bool)
    (nNewEntries : Nat) :
    Frames (fun server : Server => server.raft.log)
      (persistCircular writeLog nNewEntries) :=
  (persistCircular_frames writeLog nNewEntries).coarsen
    (fun server : Server => server.raft.log) fun _ => rfl

theorem updateTerm_log
    (msgTerm : Nat) :
    Frames (fun server : Server => server.raft.log) (updateTerm msgTerm) := by
  refine Frames.bind Frames.get fun server => Frames.ite ?_ (Frames.pure _)
  exact Frames.bind (Frames.modifyState fun _ => rfl) fun _ =>
    Frames.bind (persistCircular_log _ _) fun _ => Frames.pure _

theorem handleRequestVoteRequest_log
    (req : RequestVoteRequest) :
    Frames (fun server : Server => server.raft.log)
      (handleRequestVoteRequest req) := by
  refine Frames.bind (updateTerm_log _).discard fun _ =>
    Frames.bind Frames.get fun server =>
      Frames.ite (Frames.pure _) (Frames.ite ?_ (Frames.pure _))
  exact Frames.bind (Frames.modifyState fun _ => rfl) fun _ =>
    Frames.bind (persistCircular_log _ _) fun _ => Frames.pure _

theorem finishAppend_log
    (req : AppendEntriesRequest)
    (rspTerm : Nat) :
    Frames (fun server : Server => server.raft.log)
      (finishAppend req rspTerm) :=
  Frames.bind (Frames.modifyState fun _ => rfl) fun _ =>
    Frames.bind (persistCircular_log _ _) fun _ => Frames.pure _

/-- The section extends the in-memory log at its end. -/
def ExtendsLog
    {α : Type}
    (action : Section α)
    (server : Server) : Prop :=
  wp action (fun _ final => server.raft.log <+: final.raft.log)
    (fun _ final => server.raft.log <+: final.raft.log) server

/-- A section that leaves the log alone extends it by nothing. -/
theorem extendsLog_of_frames
    {α : Type}
    {action : Section α}
    (frames : Frames (fun server : Server => server.raft.log) action)
    (server : Server) :
    ExtendsLog action server :=
  wp_mono (frames.ends server)
    (fun _ _ same => same ▸ List.prefix_refl _)
    fun _ _ same => same ▸ List.prefix_refl _

/-- Taking up entries extends the log. -/
theorem completeAppend_log
    (pending : PendingAppend)
    (server : Server) :
    ExtendsLog (completeAppend pending) server := by
  have built : server.raft.log <+:
      (server.buildLog pending.req pending.newTail
        pending.skipEntries).raft.log := by
    unfold Server.buildLog
    split
    · exact appendMetas_prefix _ _ _ _
    · exact List.prefix_refl _
  simp only [ExtendsLog, completeAppend, wp_bind, wp_modify]
  refine wp_mono ((finishAppend_log _ _).ends _) ?_ ?_
  · intro _ final same
    rw [same]
    exact built
  · intro _ final same
    rw [same]
    exact built

theorem handleAppendEntriesFinish_log
    (pending : PendingAppend)
    (copied : Bool)
    (server : Server) :
    ExtendsLog (handleAppendEntriesFinish pending copied) server := by
  cases copied with
  | false =>
      exact List.prefix_refl _
  | true =>
      exact completeAppend_log pending server

theorem acceptAppend_log
    (req : AppendEntriesRequest)
    (server : Server) :
    ExtendsLog (acceptAppend req) server := by
  have finished := extendsLog_of_frames
    (finishAppend_log req server.raft.currentTerm) server
  simp only [ExtendsLog, acceptAppend, modifyRing, wp_bind, wp_get, wp_ite,
    wp_modify, wp_pure]
  split_ifs
  · exact finished
  · exact completeAppend_log _ _
  · exact List.prefix_refl _
  · exact finished

/-- An append request extends the log. -/
theorem handleAppendEntriesRequest_log
    (req : AppendEntriesRequest)
    (server : Server) :
    ExtendsLog (handleAppendEntriesRequest req) server := by
  simp only [ExtendsLog, handleAppendEntriesRequest, wp_bind, wp_discard]
  refine wp_mono ((updateTerm_log req.term).ends server) ?_ ?_
  · intro _ middle same
    have down : (middle.stepDown req).raft.log = server.raft.log := by
      rw [← same]
      unfold Server.stepDown
      split <;> rfl
    simp only [wp_modify, wp_get, wp_ite, wp_pure]
    rw [← down]
    split
    · exact List.prefix_refl _
    · split
      · exact List.prefix_refl _
      · exact acceptAppend_log req _
  · intro _ final same
    exact same ▸ List.prefix_refl _

/-- The acts of the two RPC handlers. -/
def Act.isHandler : Act → Bool
  | .handleVote _ _ => true
  | .handleAppend _ _ => true
  | .handleAppendFinish _ _ => true
  | _ => false

/-- Handlers only, and no handler finishes behind a tail that has moved. -/
def handlersInOrder
    (proc : Process)
    (input : Input) :
    Bool :=
  input.act.isHandler && proc.node.tailUnmoved input.act

/-- The body of a handler extends the in-memory log. -/
theorem handlerBody_log
    {proc : Process}
    (outcomes : IoOutcomes)
    {act : Act}
    (handler : act.isHandler = true) :
    proc.BodySpec outcomes act
      (fun final => proc.server.raft.log <+: final.raft.log)
      (fun final => proc.server.raft.log <+: final.raft.log) := by
  unfold Process.BodySpec Process.body
  cases act with
  | handleVote src req =>
      exact extendsLog_of_frames (handleRequestVoteRequest_log req).discard _
  | handleAppend src req =>
      dsimp only
      rw [wp_discard]
      exact handleAppendEntriesRequest_log req _
  | handleAppendFinish index copied =>
      dsimp only
      split
      · rename_i thread _
        cases thread with
        | appendHandler src pending =>
            simp only [Thread.body, wp_discard]
            exact handleAppendEntriesFinish_log _ _ _
        | _ =>
            exact List.prefix_refl _
      · exact List.prefix_refl _
  | _ =>
      cases handler

/-- The invariant of the log's representation. -/
structure Server.LogIndexed (server : Server) : Prop where
  sentinel : server.raft.log.head? = some {}
  covered : server.raft.log.length - 1 ≤ server.ring.tailLogIndex - 1
  committed : server.raft.commitIndex ≤ server.ring.tailLogIndex - 1

/-- Indices keep their entries and the counters do not move back. -/
structure Server.LogContinues (before after : Server) : Prop where
  tail : before.ring.tailLogIndex ≤ after.ring.tailLogIndex
  commit : before.raft.commitIndex ≤ after.raft.commitIndex
  entries :
    ∀ logIdx,
      before.oldestLogIndex ≤ logIdx →
      logIdx < before.ring.tailLogIndex →
      after.oldestLogIndex ≤ logIdx →
      logIdx < after.ring.tailLogIndex →
      after.logAt logIdx = before.logAt logIdx

/-- What a run of handlers keeps. -/
structure Process.LogKept (proc : Process) : Prop where
  wellformed : proc.Wellformed
  indexed : proc.server.view.Indexed
  sentinel : proc.server.raft.log.head? = some {}
  reach : proc.node.HandlersReach

/-- What a run of handlers from one process to another keeps. -/
structure Server.Extended (before after : Server) : Prop where
  log : before.raft.log <+: after.raft.log
  oldest : after.oldestLogIndex = before.oldestLogIndex
  tail : before.ring.tailLogIndex ≤ after.ring.tailLogIndex
  commit : before.raft.commitIndex ≤ after.raft.commitIndex

/-- Extending twice is extending. -/
theorem Server.Extended.trans
    {first second third : Server}
    (lower : first.Extended second)
    (upper : second.Extended third) :
    first.Extended third where
  log := lower.log.trans upper.log
  oldest := upper.oldest.trans lower.oldest
  tail := lower.tail.trans upper.tail
  commit := lower.commit.trans upper.commit

/-- Every step inside the condition keeps the log indexed. -/
theorem logKept_step
    {proc next : Process}
    {input : Input}
    (kept : proc.LogKept)
    (allowed : handlersInOrder proc input = true)
    (advanced : proc.advance input = some next) :
    next.LogKept ∧ proc.server.Extended next.server := by
  obtain ⟨result, stepped, rfl⟩ := Option.map_eq_some_iff.mp advanced
  simp only [handlersInOrder, Bool.and_eq_true] at allowed
  obtain ⟨handler, unmoved⟩ := allowed
  have noRestart :
      ∀ kernel cacheLost, input.act ≠ .restart kernel cacheLost := by
    rintro kernel cacheLost same
    rw [same] at handler
    cases handler
  have keepsFront : input.act.keepsFront = true := by
    cases same : input.act <;> rw [same] at handler <;>
      first | rfl | cases handler
  have does := Process.step_does kept.wellformed stepped
  have log : proc.server.raft.log <+: result.1.server.raft.log := by
    rcases Process.step_ends (handlerBody_log input.outcomes handler) stepped
      noRestart with unchanged | returned | ⟨threw, -⟩
    · rw [unchanged]
    · exact returned
    · exact threw
  have indexed := kept.indexed
  have grown := does.grown
    (Nat.lt_of_lt_of_le indexed.sentinel indexed.covered) kept.reach unmoved
    keepsFront
  have forward := does.commitForward indexed kept.reach unmoved noRestart
  refine ⟨⟨?_, ?_, ?_, ?_⟩, ⟨log, ?_, ?_, ?_⟩⟩
  · exact Process.step_wellformed kept.wellformed stepped
  · exact does.indexed indexed kept.reach unmoved noRestart
  · obtain ⟨added, same⟩ := log
    rw [← same, List.head?_append, kept.sentinel]
    rfl
  · exact does.handlersReach kept.reach
  · rw [oldestLogIndex_eq, oldestLogIndex_eq]
    exact grown.oldest indexed.sentinel indexed.covered
  · obtain ⟨added, -, tail⟩ := grown
    have same : result.1.server.ring.tailLogIndex =
        proc.server.ring.tailLogIndex + added.length := tail
    omega
  · unfold View.CommitForward at forward
    have moved : result.1.server.raft.commitIndex =
          proc.server.raft.commitIndex ∨
        proc.server.raft.commitIndex < result.1.server.raft.commitIndex := by
      rcases forward with same | further
      · exact Or.inl same
      · exact Or.inr further.1
    omega

/-- An extended log keeps the entries of its indices. -/
theorem Server.Extended.continues
    {before after : Server}
    (extended : before.Extended after)
    (indexed : before.view.Indexed) :
    before.LogContinues after where
  tail := extended.tail
  commit := extended.commit
  entries := by
    intro logIdx fromOldest belowTail _ _
    have sentinel := indexed.sentinel
    have covered := indexed.covered
    have size : before.view.log.length = before.raft.log.length := by
      simp [Server.view]
    have tail : before.view.tail = before.ring.tailLogIndex := rfl
    have oldest := View.oldest_eq indexed.covered
    rw [← oldestLogIndex_eq] at oldest
    have slice : before.logSlice logIdx < before.raft.log.length := by
      unfold Server.logSlice
      rw [sub64_of_le (by omega)]
      omega
    obtain ⟨added, same⟩ := extended.log
    unfold Server.logAt Server.logSlice
    unfold Server.logSlice at slice
    rw [extended.oldest, ← same, List.getD_eq_getElem?_getD,
      List.getD_eq_getElem?_getD, List.getElem?_append_left slice]

/-- A booted node's log is indexed. -/
theorem boot_logKept
    {n : Nat}
    (members : Membership n)
    (settings : Fin n → Settings)
    (node : Fin n)
    (started : (members.boot settings node).halted = false) :
    (members.boot settings node).LogKept := by
  obtain ⟨halted, fresh⟩ := boot_node members settings node
  have running : (members.boot settings node).halted = halted :=
    congrArg Node.halted fresh
  rw [← running, started] at fresh
  have viewed : (members.boot settings node).server.view =
      (members.constructedView node).started :=
    congrArg Node.view fresh
  have threads : (members.boot settings node).node.threads = [] := by
    rw [fresh]
    rfl
  refine ⟨boot_wellformed members settings node, ?_, ?_, ?_⟩
  · rw [viewed]
    exact ⟨Nat.one_pos, le_refl _, le_refl _⟩
  · have spec := initStorage_spec { fiemap := some (settings node).extents }
      (show headerSize ≤
        ((members.server settings node).constructed.withOutcomes
          {}).ring.fileSizeBytes from server_headerFits members settings node)
    revert started
    refine execOrHalt_wp
      (fun result => result.1.halted = false →
        result.1.server.raft.log.head? = some {}) spec ?_ ?_
    · rintro _ server ⟨-, log, -⟩ _
      rw [log]
      rfl
    · exact fun _ _ _ halted => by cases halted
  · intro src pending member
    rw [threads] at member
    cases member

/--
Handlers keep the representation of the log, under any overlap, when every
handler that finishes finds the tail where it left it: the sentinel stays, no
index computation wraps around, tail and commit index do not move back, and
an index that stays in memory keeps its entry.
-/
theorem handlers_keep_log_indices
    {n : Nat}
    {members : Membership n}
    {settings : Fin n → Settings}
    {node : Fin n}
    {inputs later : List Input}
    {middle final : Process}
    (started : (members.boot settings node).halted = false)
    (run :
      runWhile handlersInOrder Process.advance
        (members.boot settings node) inputs = some middle)
    (goesOn :
      runWhile handlersInOrder Process.advance middle later = some final) :
    final.server.LogIndexed ∧
      middle.server.LogContinues final.server := by
  have kept : middle.LogKept :=
    runWhile_invariant Process.LogKept
      (fun _ _ _ kept allowed advanced =>
        (logKept_step kept allowed advanced).1)
      (boot_logKept members settings node started) run
  have extended :
      final.LogKept ∧ middle.server.Extended final.server := by
    refine runWhile_invariant
      (fun proc => proc.LogKept ∧ middle.server.Extended proc.server)
      (fun proc input next holds allowed advanced => ?_) ?_ goesOn
    · obtain ⟨nextKept, further⟩ := logKept_step holds.1 allowed advanced
      exact ⟨nextKept, holds.2.trans further⟩
    · exact ⟨kept, List.prefix_refl _, rfl, le_refl _, le_refl _⟩
  obtain ⟨finalKept, further⟩ := extended
  refine ⟨⟨finalKept.sentinel, ?_, finalKept.indexed.committed⟩,
    further.continues kept.indexed⟩
  have covered := finalKept.indexed.covered
  have size : final.server.view.log.length =
      final.server.raft.log.length := by
    simp [Server.view]
  have tail : final.server.view.tail = final.server.ring.tailLogIndex := rfl
  omega

/-- The request is handled, and its retry after it has finished. -/
def retryAfterwards : List Input :=
  [{ act := .handleAppend 1 firstEntryRequest },
   { act := .handleAppendFinish 0 true },
   { act := .handleAppend 1 firstEntryRequest }]

/-- A retry that comes after the first attempt is in order. -/
theorem retry_afterwards_keeps_indices :
    ∃ final,
      runWhile handlersInOrder Process.advance firstNode retryAfterwards =
          some final ∧
        final.server.ring.tailLogIndex = 2 ∧
          final.server.LogIndexed ∧
            firstNode.server.LogContinues final.server := by
  obtain ⟨final, run, tail⟩ :
      ∃ final,
        runWhile handlersInOrder Process.advance firstNode retryAfterwards =
            some final ∧
          decide (final.server.ring.tailLogIndex = 2) = true :=
    runWhile_exists (by decide +kernel)
  have started : firstNode.halted = false := by decide +kernel
  exact ⟨final, run, of_decide_eq_true tail,
    handlers_keep_log_indices started (show
      runWhile handlersInOrder Process.advance firstNode [] = some firstNode
      from rfl) run⟩

/-- Handlers keep the log's representation in every run from this state. -/
def HandlersKeepIndices (start : Process) : Prop :=
  ∀ inputs later middle final,
    runWhile (fun _ input => input.act.isHandler) Process.advance start
      inputs = some middle →
    runWhile (fun _ input => input.act.isHandler) Process.advance middle
      later = some final →
    final.server.LogIndexed ∧ middle.server.LogContinues final.server

/-- A request and its retry, both between their sections at once. -/
def overlappingRetry : List Input :=
  [{ act := .handleAppend 1 firstEntryRequest },
   { act := .handleAppend 1 firstEntryRequest },
   { act := .handleAppendFinish 0 true },
   { act := .handleAppendFinish 0 true }]

/-- An overlapping retry appends twice and counts once. -/
theorem overlapping_retry_breaks_indices :
    ¬ HandlersKeepIndices firstNode := by
  intro keeps
  obtain ⟨final, run, uncovered⟩ :
      ∃ final,
        runWhile (fun _ input => input.act.isHandler) Process.advance
            firstNode overlappingRetry = some final ∧
          decide (¬ final.server.raft.log.length - 1 ≤
            final.server.ring.tailLogIndex - 1) = true :=
    runWhile_exists (by decide +kernel)
  have kept := keeps [] overlappingRetry firstNode final rfl run
  exact of_decide_eq_true uncovered kept.1.covered

end NvmeofRaft
