import NvmeofRaft.AppendAnswer

namespace NvmeofRaft

/-!
# Redelivered append requests

A leader sends a batch again when it has lost the reply.  A follower that has
accepted the batch answers the repetition from its log: the term, the vote and
the header are settled, so nothing is written, and the whole batch is skipped.
-/

/-- A follower of the term whose header is on the device. -/
structure Server.Settled
    (server : Server)
    (term : Nat) : Prop where
  sameTerm : server.raft.currentTerm = term
  follower : server.raft.state = .follower
  header : needsHeader server = false

/-- Without a header to write a call for the header has no I/O. -/
theorem wp_persistHeader_settled
    {server : Server}
    (header : needsHeader server = false)
    {returns : Unit → Server → Prop}
    {throws : Exn → Server → Prop} :
    wp (persistCircular false 0) returns throws server ↔
      returns () (notePersistReturn server) := by
  simp only [persistCircular, persistSync, wp_bind, wp_get, wp_ite, wp_pure,
    wp_modify, header, Bool.false_eq_true, false_and, if_false]

theorem fdatasync_needsHeader :
    Frames needsHeader fdatasync := by
  refine Frames.bind ?_ fun outcome => ?_
  · exact Frames.bind Frames.get fun _ =>
      Frames.bind (Frames.modifyState fun _ => rfl) fun _ => Frames.pure _
  · exact Frames.ite (Frames.modifyState fun _ => rfl) (Frames.throw _)

theorem needsHeader_of_cached
    {server : Server}
    (init : server.ring.persistedInit = true)
    (term : server.ring.persistedTerm = server.raft.currentTerm)
    (vote : server.ring.persistedVotedFor = server.getVotedFor) :
    needsHeader server = false := by
  rw [needsHeader, init, term, vote]
  simp

/-- Behind a call for the header that returns, the header is written. -/
theorem persistHeader_settles
    (server : Server) :
    wp (persistCircular false 0)
      (fun _ final => needsHeader final = false) (fun _ _ => True) server := by
  cases header : needsHeader server with
  | false =>
      rw [wp_persistHeader_settled header]
      exact header
  | true =>
      simp only [persistCircular, persistSync, wp_bind, wp_get, wp_ite,
        wp_modify, header, Bool.false_eq_true, false_and, if_false, if_true,
        persistHeader]
      refine wp_of_forall fun _ written => ?_
      refine wp_mono (fdatasync_needsHeader.ends _) (fun _ synced same => ?_)
        fun _ _ _ => trivial
      exact same.trans (needsHeader_of_cached rfl rfl rfl)

theorem finishAppend_settles
    (req : AppendEntriesRequest)
    (rspTerm : Nat)
    (server : Server) :
    wp (finishAppend req rspTerm)
      (fun _ final => needsHeader final = false) (fun _ _ => True)
      server := by
  simp only [finishAppend, wp_bind, wp_modify, wp_pure]
  exact persistHeader_settles _

theorem stepDown_header
    (server : Server)
    (req : AppendEntriesRequest) :
    needsHeader (server.stepDown req) = needsHeader server := by
  unfold Server.stepDown
  split <;> rfl

/-- A request of the term of a settled follower does not change the term. -/
theorem Server.Settled.keepsTerm
    {server : Server}
    {term : Nat}
    (settled : server.Settled term) :
    wp (updateTerm term) (fun _ middle => middle = server) (fun _ _ => False)
      server := by
  have notHigher : ¬ server.raft.currentTerm < term := by
    rw [settled.sameTerm]
    exact Nat.lt_irrefl _
  simp only [updateTerm, wp_bind, wp_get, wp_ite, wp_pure, wp_modify]
  rw [if_neg notHigher]
  trivial

/--
Behind an answer with success, and behind every answer of a settled follower,
the header is written.
-/
theorem handleAppendAlone_header
    (copied : Bool)
    (req : AppendEntriesRequest)
    (server : Server) :
    wp (handleAppendAlone copied req)
      (fun rsp final =>
        rsp.success = true ∨ server.Settled req.term →
          needsHeader final = false)
      (fun _ _ => True) server := by
  have finishes :
      ∀ rspTerm (middle : Server),
        wp (finishAppend req rspTerm)
          (fun rsp final =>
            rsp.success = true ∨ server.Settled req.term →
              needsHeader final = false)
          (fun _ _ => True) middle :=
    fun rspTerm middle => wp_mono (finishAppend_settles req rspTerm middle)
      (fun _ _ settled _ => settled) fun _ _ _ => trivial
  have starts :
      wp (updateTerm req.term)
        (fun _ middle =>
          server.Settled req.term →
            needsHeader (middle.stepDown req) = false)
        (fun _ _ => True) server := by
    by_cases settled : server.Settled req.term
    · refine wp_mono settled.keepsTerm ?_ fun _ _ never => never.elim
      rintro _ _ rfl -
      exact (stepDown_header _ req).trans settled.header
    · exact wp_of_forall fun _ _ other => absurd other settled
  simp only [handleAppendAlone, handleAppendEntriesRequest, wp_bind,
    wp_discard, wp_modify, wp_get, wp_ite, wp_pure]
  refine wp_mono starts (fun _ middle calm => ?_) fun _ _ _ => trivial
  have refuses :
      ∀ success : Bool,
        success = false →
        success = true ∨ server.Settled req.term →
          needsHeader (middle.stepDown req) = false := by
    rintro success refused (other | settled)
    · rw [refused] at other
      cases other
    · exact calm settled
  split
  · exact refuses false rfl
  · have conflict := prevLogConflict_spec (middle.stepDown req) req
    cases found : prevLogConflict (middle.stepDown req) req with
    | some rsp =>
        rw [found] at conflict
        exact refuses rsp.success conflict.2.1
    | none =>
        simp only [acceptAppend, wp_bind, wp_get, wp_ite, wp_pure,
          modifyRing, wp_modify, completeAppend]
        split_ifs
        · exact finishes _ _
        · exact finishes _ _
        · rw [handleAppendEntriesFinish, completeAppend]
          simp only [wp_ite, wp_bind, wp_modify, wp_pure]
          split
          · exact finishes _ _
          · exact refuses false rfl
        · exact finishes _ _

/-- The handler leaves the term and the role with which it goes on. -/
theorem View.Answered.sameRole
    {view after : View}
    {copied success : Bool}
    {req : AppendEntriesRequest}
    (answered : view.Answered copied req success after) :
    after.term = (view.meet req.term).term ∧
      after.role = (view.meet req.term).role := by
  cases answered with
  | refused _ =>
      exact ⟨rfl, rfl⟩
  | followed _ _ =>
      exact ⟨rfl, rfl⟩
  | uncopied _ _ _ =>
      exact ⟨rfl, rfl⟩
  | completed _ _ =>
      unfold View.complete View.followCommit View.build
      split <;> exact ⟨rfl, rfl⟩

section

variable {server after : Server} {req : AppendEntriesRequest}
variable {rsp : AppendEntriesResponse} {copied : Bool}

theorem header_of_run
    (ran : (handleAppendAlone copied req).run server = .ok rsp after)
    (settles : rsp.success = true ∨ server.Settled req.term) :
    needsHeader after = false := by
  have ends := handleAppendAlone_header copied req server
  unfold wp at ends
  rw [ran] at ends
  exact ends settles

/-- A follower that has answered success is settled. -/
theorem settled_of_success
    (ran : (handleAppendAlone copied req).run server = .ok rsp after)
    (success : rsp.success = true) :
    after.Settled req.term := by
  have answered := answered_of_run ran
  obtain ⟨term, role⟩ := answered.sameRole
  rw [success] at answered
  have accepts := answered.accepts
  exact {
    sameTerm := term.trans accepts.sameTerm.symm
    follower := role.trans accepts.follower
    header := header_of_run ran (Or.inl success) }

theorem Server.Settled.met
    (settled : server.Settled req.term) :
    server.view.meet req.term = server.view := by
  have notHigher : req.term ≤ server.view.term :=
    Nat.le_of_eq settled.sameTerm.symm
  have follower : server.view.role = .follower := settled.follower
  rw [View.meet, View.bump_of_le notHigher, View.stepDown, follower]
  exact if_neg fun candidate => ServerState.noConfusion candidate.2

/-- A settled follower stays settled under requests of its term. -/
theorem Server.Settled.goesOn
    (settled : server.Settled req.term)
    (ran : (handleAppendAlone copied req).run server = .ok rsp after) :
    after.Settled req.term := by
  obtain ⟨term, role⟩ := (answered_of_run ran).sameRole
  rw [settled.met] at term role
  exact {
    sameTerm := term.trans settled.sameTerm
    follower := role.trans settled.follower
    header := header_of_run ran (Or.inr settled) }

/-- The server behind an answer from its log. -/
def Server.confirmed
    (server : Server)
    (leaderCommit : Nat) :
    Server :=
  notePersistReturn (server.followCommit leaderCommit)

/-- A settled follower confirms what it has without any I/O. -/
theorem Server.Settled.confirms
    (settled : server.Settled req.term)
    (prevOk : server.view.prevOk req = true)
    (known : ¬ server.view.Extends req)
    (copied : Bool) :
    (handleAppendAlone copied req).run server =
      .ok { term := req.term, success := true }
        (server.confirmed req.leaderCommit) := by
  have finishes :
      wp (finishAppend req server.raft.currentTerm)
        (fun rsp final =>
          rsp = { term := req.term, success := true } ∧
            final = server.confirmed req.leaderCommit)
        (fun _ _ => False) server := by
    have header :
        needsHeader (server.followCommit req.leaderCommit) = false :=
      settled.header
    simp only [finishAppend, wp_bind, wp_modify, wp_pure]
    rw [wp_persistHeader_settled header, settled.sameTerm]
    exact ⟨rfl, rfl⟩
  have follower : server.stepDown req = server := by
    refine if_neg fun candidate => ?_
    rw [settled.follower] at candidate
    cases candidate.2
  have passes :
      ¬ (server.raft.state ≠ .follower ∨
        req.term < server.raft.currentTerm) := by
    rintro (other | stale)
    · exact other settled.follower
    · exact absurd settled.sameTerm (Nat.ne_of_gt stale)
  have agreed : prevLogConflict server req = none := by
    rw [← Option.isNone_iff_eq_none, prevLogConflict_isNone]
    exact prevOk
  have ends :
      wp (handleAppendAlone copied req)
        (fun rsp final =>
          rsp = { term := req.term, success := true } ∧
            final = server.confirmed req.leaderCommit)
        (fun _ _ => False) server := by
    simp only [handleAppendAlone, handleAppendEntriesRequest, wp_bind,
      wp_discard, wp_modify, wp_get, wp_ite, wp_pure]
    refine wp_mono settled.keepsTerm ?_ fun _ _ never => never.elim
    intro _ middle same
    rw [same, follower, if_neg passes, agreed]
    simp only [acceptAppend, wp_bind, wp_get, wp_ite, wp_pure, modifyRing,
      wp_modify]
    have none :
        ¬ (req.prevLogIndex + 1 < server.ring.tailLogIndex ∧
            req.numEntries ≤
              server.ring.tailLogIndex - (req.prevLogIndex + 1)) →
        ¬ (0 < req.numEntries ∧ req.leaderPbaSrc ≠ 0) := by
      intro fresh carries
      have short :
          req.numEntries ≤
            server.ring.tailLogIndex - (req.prevLogIndex + 1) := by
        by_contra more
        exact known ⟨carries.1, carries.2, Nat.not_le.mp more⟩
      exact fresh ⟨by omega, short⟩
    split_ifs with skipped carries already
    · exact finishes
    · exact absurd carries (none skipped)
    · exact absurd carries (none skipped)
    · exact finishes
  unfold wp at ends
  split at ends
  · rename_i rsp final ran
    rw [ran, ends.1, ends.2]
  · exact ends.elim

end

theorem View.Grown.trans
    {before middle after : View}
    (first : before.Grown middle)
    (second : middle.Grown after) :
    before.Grown after := by
  obtain ⟨early, log, tail⟩ := first
  obtain ⟨late, log', tail'⟩ := second
  refine ⟨early ++ late, ?_, ?_⟩
  · rw [log', log, List.append_assoc]
  · rw [tail', tail, List.length_append, Nat.add_assoc]

/-- The previous entry passes the check as long as the log grows. -/
theorem View.Grown.prevOk
    {before after : View}
    {req : AppendEntriesRequest}
    (grown : before.Grown after)
    (covered : before.LogCovered)
    (passes : before.prevOk req = true) :
    after.prevOk req = true := by
  have oldest := grown.oldest covered.sentinel covered.covered
  have longer : before.tail ≤ after.tail := by
    obtain ⟨added, -, tail⟩ := grown
    omega
  simp only [View.prevOk, Bool.or_eq_true, Bool.and_eq_true,
    decide_eq_true_eq] at passes ⊢
  rcases passes with zero | ⟨below, trimmed | same⟩
  · exact Or.inl zero
  · exact Or.inr ⟨by omega, Or.inl (oldest.symm ▸ trimmed)⟩
  · by_cases inMemory : before.oldest ≤ req.prevLogIndex
    · refine Or.inr ⟨by omega, Or.inr ?_⟩
      rw [grown.termAt covered inMemory below, same]
    · exact Or.inr ⟨by omega, Or.inl (by omega)⟩

/-- A follower that knows the previous entry and the batch of a request. -/
structure View.Knows
    (view : View)
    (req : AppendEntriesRequest) : Prop where
  covered : view.LogCovered
  prevOk : view.prevOk req = true
  known : ¬ view.Extends req

/-- What is known stays known while the log grows. -/
theorem View.Knows.mono
    {before after : View}
    {req : AppendEntriesRequest}
    (knows : before.Knows req)
    (grown : before.Grown after) :
    after.Knows req := by
  refine ⟨grown.logCovered knows.covered,
    grown.prevOk knows.covered knows.prevOk, ?_⟩
  rintro ⟨some, source, short⟩
  obtain ⟨added, -, tail⟩ := grown
  exact knows.known ⟨some, source, by omega⟩

/-- A request that has been answered with success is known. -/
theorem View.Answered.knows
    {view after : View}
    {copied : Bool}
    {req : AppendEntriesRequest}
    (answered : view.Answered copied req true after)
    (covered : view.LogCovered)
    (built : req.Built) :
    after.Knows req := by
  have longer := answered.grown covered
  obtain ⟨log, tail, -⟩ := meet_sameLog view req
  have met : (view.meet req.term).LogCovered := by
    constructor
    · rw [log]
      exact covered.sentinel
    · rw [log, tail]
      exact covered.covered
  refine ⟨longer.logCovered covered, ?_, ?_⟩
  · cases answered with
    | followed accepts _ =>
        exact accepts.prevOk
    | completed accepts brings =>
        have started : 0 < (view.meet req.term).tail :=
          Nat.lt_of_lt_of_le met.sentinel met.covered
        exact (View.complete_grown (View.pending_reaches brings)
          (View.pending_fits started accepts)).prevOk met accepts.prevOk
  · cases answered with
    | followed _ noData =>
        exact noData
    | completed _ brings =>
        obtain ⟨-, ends⟩ := complete_built (view.meet req.term) built
        rintro ⟨-, -, short⟩
        rw [ends] at short
        omega

/-- A follower handles requests of one term, one after the other. -/
inductive HandlesSerially (term : Nat) : Server → Server → Prop where
  | done (server : Server) :
      HandlesSerially term server server
  | handle
      {server middle after : Server}
      {copied : Bool}
      {req : AppendEntriesRequest}
      {rsp : AppendEntriesResponse} :
      req.term = term →
      (handleAppendAlone copied req).run server = .ok rsp middle →
      HandlesSerially term middle after →
      HandlesSerially term server after

/-- Over such requests the follower stays settled and its log grows. -/
theorem HandlesSerially.grows
    {term : Nat}
    {server after : Server}
    (handles : HandlesSerially term server after) :
    server.Settled term →
    server.view.LogCovered →
    after.Settled term ∧ server.view.Grown after.view := by
  induction handles with
  | done server =>
      intro settled _
      exact ⟨settled, [], (List.append_nil _).symm, rfl⟩
  | handle sameTerm ran _ inductionHypothesis =>
      rename_i server middle after copied req rsp later
      intro settled covered
      rw [← sameTerm] at settled inductionHypothesis ⊢
      have grown := (answered_of_run ran).grown covered
      obtain ⟨still, further⟩ :=
        inductionHypothesis (settled.goesOn ran) (grown.logCovered covered)
      exact ⟨still, grown.trans further⟩

/-- The log, the tail index and the tail slot are as before. -/
structure Server.SameLog (before after : Server) : Prop where
  log : after.raft.log = before.raft.log
  tailLogIndex : after.ring.tailLogIndex = before.ring.tailLogIndex
  tailSlot : after.ring.tailSlot = before.ring.tailSlot

/-- A second look at the commit index of the leader changes nothing. -/
theorem View.followCommit_again
    (view : View)
    (leaderCommit : Nat) :
    ((view.followCommit leaderCommit).followCommit leaderCommit).commit =
      (view.followCommit leaderCommit).commit := by
  simp only [View.followCommit]
  split_ifs <;> omega

theorem View.Answered.commit_again
    {view after : View}
    {copied : Bool}
    {req : AppendEntriesRequest}
    (answered : view.Answered copied req true after) :
    (after.followCommit req.leaderCommit).commit = after.commit := by
  cases answered with
  | followed _ _ =>
      exact View.followCommit_again _ _
  | completed _ _ =>
      exact View.followCommit_again _ _

/--
Redelivery of an accepted request: over every follower whose log covers its
indices and every request that `append_entries_worker` builds, once the
request has been answered with success, it is answered with success again
after any sequence of requests of its term, and the log, the tail index and
the tail slot stay as they are; handled again at once, so does the commit
index.
-/
theorem redelivery_harmless
    {server handled : Server}
    {req : AppendEntriesRequest}
    {rsp : AppendEntriesResponse}
    (covered : server.view.LogCovered)
    (built : req.Built)
    (ran : (handleAppendAlone true req).run server = .ok rsp handled)
    (success : rsp.success = true) :
    (∀ before copied,
      HandlesSerially req.term handled before →
      ∃ again after,
        (handleAppendAlone copied req).run before = .ok again after ∧
          again.success = true ∧ before.SameLog after) ∧
      ∀ copied again after,
        (handleAppendAlone copied req).run handled = .ok again after →
        after.raft.commitIndex = handled.raft.commitIndex := by
  have settled := settled_of_success ran success
  have answered := answered_of_run ran
  rw [success] at answered
  have knows := answered.knows covered built
  constructor
  · intro before copied handles
    obtain ⟨still, grown⟩ := handles.grows settled knows.covered
    have reaches := knows.mono grown
    exact ⟨_, _, still.confirms reaches.prevOk reaches.known copied, rfl,
      ⟨rfl, rfl, rfl⟩⟩
  · intro copied again after rerun
    rw [settled.confirms knows.prevOk knows.known copied] at rerun
    cases rerun
    exact answered.commit_again

/-- A third entry is delivered again after its reply was lost. -/
theorem new_entry_redelivered :
    ∃ rsp handled,
      (handleAppendAlone true (oneEntryBatch 2 2 1)).run staleFollower =
          .ok rsp handled ∧
        handled.view.tail = 4 ∧
          (∀ before copied,
            HandlesSerially 2 handled before →
            ∃ again after,
              (handleAppendAlone copied (oneEntryBatch 2 2 1)).run before =
                  .ok again after ∧
                again.success = true ∧ before.SameLog after) ∧
            ∀ copied again after,
              (handleAppendAlone copied (oneEntryBatch 2 2 1)).run handled =
                .ok again after →
              after.raft.commitIndex = handled.raft.commitIndex := by
  obtain ⟨rsp, handled, ran⟩ :=
    (handleAppendAlone_unfailing true (oneEntryBatch 2 2 1)).returns
      (show staleFollower.Succeeds from rfl)
  have answered := answered_of_run ran
  have accepts : (staleFollower.view.meet 2).Accepts (oneEntryBatch 2 2 1) :=
    (accepts_iff staleFollower (oneEntryBatch 2 2 1)).mp (by decide +kernel)
  have success := answered.success accepts
  rw [success] at answered
  refine ⟨rsp, handled, ran, ?_, redelivery_harmless staleFollower_covered
    (oneEntryBatch_built 2 2 1) ran success⟩
  generalize handled.view = after at answered
  cases answered with
  | followed _ noData =>
      exact absurd (by decide) noData
  | completed _ _ =>
      rfl

end NvmeofRaft
