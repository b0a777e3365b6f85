import NvmeofRaft.View

namespace NvmeofRaft

/-!
# Effects of the lock sections on the view

One specification for every lock section.  An effect is stated for both ways
a section can end, because an exception keeps the changes made before it.
-/

/-- Persisting does not change the view. -/
theorem persistCircular_view
    (writeLog : Bool)
    (nNewEntries : Nat) :
    Frames Server.view (persistCircular writeLog nNewEntries) :=
  (persistCircular_frames writeLog nNewEntries).coarsen Server.view
    fun _ => rfl

/-- What a caller that only looks at the view may assume of persisting. -/
theorem wp_persistCircular
    {writeLog : Bool}
    {nNewEntries : Nat}
    {returns : Unit → Server → Prop}
    {throws : Exn → Server → Prop}
    {server : Server}
    (onReturn :
      ∀ final : Server, final.view = server.view → returns () final)
    (onThrow :
      ∀ exn (final : Server), final.view = server.view → throws exn final) :
    wp (persistCircular writeLog nNewEntries) returns throws server :=
  wp_mono ((persistCircular_view writeLog nNewEntries).ends server)
    (fun _ final same => onReturn final same)
    (fun exn final same => onThrow exn final same)

theorem updateTerm_spec
    (msgTerm : Nat)
    (server : Server) :
    wp (updateTerm msgTerm)
      (fun bumped final =>
        bumped = decide (server.view.term < msgTerm) ∧
          final.view = server.view.bump msgTerm)
      (fun _ final =>
        server.view.term < msgTerm ∧
          final.view = server.view.bump msgTerm) server := by
  simp only [updateTerm, wp_bind, wp_get, wp_ite, wp_modify, wp_pure]
  by_cases higher : server.view.term < msgTerm
  · rw [if_pos (show server.raft.currentTerm < msgTerm from higher),
      View.bump_of_lt higher]
    refine wp_persistCircular (fun final same => ?_) (fun _ final same => ?_)
    · exact ⟨(decide_eq_true higher).symm, same.trans (demote_view _ _)⟩
    · exact ⟨higher, same.trans (demote_view _ _)⟩
  · rw [if_neg (show ¬ server.raft.currentTerm < msgTerm from higher),
      View.bump_of_le (Nat.not_lt.mp higher)]
    exact ⟨(decide_eq_false higher).symm, rfl⟩

theorem timeout_spec
    (expired : Bool)
    (server : Server) :
    wp (timeout expired)
      (fun fired final =>
        fired = expired ∧
          final.view =
            if expired then server.view.elect else server.view)
      (fun _ final => expired ∧ final.view = server.view.elect) server := by
  simp only [timeout, wp_bind, wp_ite, wp_modify, wp_pure]
  cases expired with
  | false =>
      exact ⟨rfl, rfl⟩
  | true =>
      refine wp_persistCircular (fun final same => ?_)
        (fun _ final same => ?_)
      · exact ⟨rfl, same.trans (startElection_view server)⟩
      · exact ⟨rfl, same.trans (startElection_view server)⟩

theorem requestVoteSend_spec
    (server : Server) :
    wp requestVoteSend
      (fun req final =>
        final = server ∧
          req = {
            term := server.view.term
            candidateId := server.view.id
            lastLogIndex := server.view.tail - 1
            lastLogTerm := server.view.lastTerm })
      (fun _ _ => False) server := by
  simp only [requestVoteSend, wp_bind, wp_get, wp_pure, lastLogTerm_eq]
  exact ⟨trivial, rfl⟩

/-- The view after the reply section of `request_vote_worker`. -/
def View.reply
    (view : View)
    (peerIndex : Nat)
    (req : RequestVoteRequest)
    (rsp : RequestVoteResponse) :
    View :=
  if ¬ view.term < rsp.term ∧ rsp.term = req.term ∧ rsp.voteGranted then
    view.record peerIndex
  else
    view.bump rsp.term

theorem requestVoteReply_spec
    (peerIndex : Nat)
    (req : RequestVoteRequest)
    (rsp : RequestVoteResponse)
    (server : Server) :
    wp (requestVoteReply peerIndex req rsp)
      (fun _ final => final.view = server.view.reply peerIndex req rsp)
      (fun _ final => final.view = server.view.reply peerIndex req rsp)
      server := by
  simp only [requestVoteReply, wp_bind]
  refine wp_mono (updateTerm_spec rsp.term server) ?_ ?_
  · rintro bumped final ⟨rfl, bumps⟩
    by_cases higher : server.view.term < rsp.term
    · simp [higher, bumps, View.reply]
    · rw [View.bump_of_le (Nat.not_lt.mp higher)] at bumps
      have kept := View.bump_of_le (Nat.not_lt.mp higher)
      by_cases current : rsp.term = req.term
      · have notHigher : ¬ server.view.term < req.term := current ▸ higher
        rw [View.reply, kept]
        by_cases granted : rsp.voteGranted = true
        · simp [current, notHigher, granted, recordVote_view, bumps]
        · simp [current, granted, bumps]
      · simp [higher, current, bumps, View.reply, kept]
  · rintro exn final ⟨higher, bumps⟩
    rw [bumps, View.reply, if_neg (by simp [higher])]

/-- The view after the vote handler, when it returns. -/
def View.voted
    (view : View)
    (req : RequestVoteRequest) :
    View :=
  let bumped := view.bump req.term
  if bumped.grants req then bumped.withVote req.candidateId else bumped

theorem handleRequestVoteRequest_spec
    (req : RequestVoteRequest)
    (server : Server) :
    wp (handleRequestVoteRequest req)
      (fun rsp final =>
        rsp = {
          term := (server.view.bump req.term).term
          voteGranted := (server.view.bump req.term).grants req } ∧
          final.view = server.view.voted req)
      (fun _ final =>
        final.view = server.view.bump req.term ∨
          final.view = server.view.voted req) server := by
  simp only [handleRequestVoteRequest, wp_bind, wp_discard]
  refine wp_mono (updateTerm_spec req.term server) ?_ ?_
  · rintro _ middle ⟨-, bumps⟩
    have sameTerm :
        middle.raft.currentTerm = (server.view.bump req.term).term :=
      congrArg View.term bumps
    simp only [wp_get, wp_ite, wp_pure, wp_bind, wp_modify, grants_eq, bumps,
      sameTerm, View.voted]
    split
    · rename_i stale
      have refused : (server.view.bump req.term).grants req = false := by
        simp [View.grants, Nat.ne_of_lt stale]
      simp [refused]
    · split
      · rename_i granted
        have votes :
            (middle.setVotedFor req.candidateId).view =
              (server.view.bump req.term).withVote req.candidateId := by
          rw [setVotedFor_view, bumps]
        refine wp_persistCircular (fun final same => ?_)
          (fun _ final same => ?_)
        · exact ⟨by rw [granted], same.trans votes⟩
        · exact Or.inr (same.trans votes)
      · rename_i refused
        exact ⟨by simp [refused], rfl⟩
  · rintro exn final ⟨-, bumps⟩
    exact Or.inl bumps

theorem becomeLeader_spec
    (load : Nat → Option (List UInt8))
    (server : Server) :
    wp (becomeLeader load)
      (fun _ final =>
        if server.view.quorumLeft = 0 then
          ∃ applied,
            server.view.Applies applied ∧
              final.view = (server.view.promoted applied).resetProgress
        else
          final.view = server.view)
      (fun _ final =>
        server.view.quorumLeft = 0 ∧
          ∃ applied,
            server.view.Applies applied ∧
              final.view = server.view.promoted applied) server := by
  obtain ⟨applied, applies, promotes⟩ := promote_view server load
  simp only [becomeLeader, wp_bind, wp_get, wp_ite, wp_modify, wp_pure,
    quorumLeft_eq]
  split
  · rename_i won
    simp only [won]
    refine wp_persistCircular (fun final same => ?_) (fun _ final same => ?_)
    · refine ⟨applied, applies, ?_⟩
      rw [resetProgress_view, same, promotes]
    · exact ⟨trivial, applied, applies, same.trans promotes⟩
  · trivial

/-- The view behind `update_term` and the step-down of a candidate. -/
def View.meet
    (view : View)
    (reqTerm : Nat) :
    View :=
  (view.bump reqTerm).stepDown reqTerm

theorem View.le_term_meet
    (view : View)
    (reqTerm : Nat) :
    reqTerm ≤ (view.meet reqTerm).term := by
  have bumped : reqTerm ≤ (view.bump reqTerm).term := by
    unfold View.bump
    split
    · exact le_refl reqTerm
    · omega
  unfold View.meet View.stepDown
  split <;> exact bumped

/-- Whether a request passes the term, state and consistency checks. -/
structure View.Accepts
    (view : View)
    (req : AppendEntriesRequest) : Prop where
  follower : view.role = .follower
  sameTerm : req.term = view.term
  prevOk : view.prevOk req = true

/-- Whether an accepted request carries entries beyond the tail. -/
def View.Extends
    (view : View)
    (req : AppendEntriesRequest) : Prop :=
  0 < req.numEntries ∧ req.leaderPbaSrc ≠ 0 ∧
    view.tail - (req.prevLogIndex + 1) < req.numEntries

/-- The locals of a handler that releases `mu` in this view. -/
def View.pending
    (view : View)
    (req : AppendEntriesRequest) :
    PendingAppend where
  req := req
  rspTerm := view.term
  newTail := req.prevLogIndex + 1
  skipEntries := view.tail - (req.prevLogIndex + 1)

/-- The view after the log build and the commit index update. -/
def View.complete
    (view : View)
    (pending : PendingAppend) :
    View :=
  (view.build pending.req pending.newTail
    pending.skipEntries).followCommit pending.req.leaderCommit

/-- Either an exception or a reply with success. -/
def Confirms
    (rspTerm : Nat)
    (result : Option AppendProgress) : Prop :=
  result = none ∨
    result = some (.replied { term := rspTerm, success := true })

/-- What the first section of the append handler can do. -/
inductive View.Handled
    (view : View)
    (req : AppendEntriesRequest) :
    Option AppendProgress → View → Prop where
  | demotionThrew :
      view.term < req.term →
      Handled view req none (view.bump req.term)
  | refused
      {rsp : AppendEntriesResponse} :
      rsp.success = false →
      rsp.term = (view.meet req.term).term →
      Handled view req (some (.replied rsp)) (view.meet req.term)
  | followed
      {result : Option AppendProgress} :
      (view.meet req.term).Accepts req →
      ¬ (view.meet req.term).Extends req →
      Confirms (view.meet req.term).term result →
      Handled view req result
        ((view.meet req.term).followCommit req.leaderCommit)
  | copying :
      (view.meet req.term).Accepts req →
      (view.meet req.term).Extends req →
      req.dataAlreadyCopied = false →
      Handled view req
        (some (.copying ((view.meet req.term).pending req)))
        (view.meet req.term)
  | completed
      {result : Option AppendProgress} :
      (view.meet req.term).Accepts req →
      (view.meet req.term).Extends req →
      req.dataAlreadyCopied = true →
      Confirms (view.meet req.term).term result →
      Handled view req result
        ((view.meet req.term).complete
          ((view.meet req.term).pending req))

theorem finishAppend_spec
    (req : AppendEntriesRequest)
    (rspTerm : Nat)
    (server : Server) :
    wp (finishAppend req rspTerm)
      (fun rsp final =>
        rsp = { term := rspTerm, success := true } ∧
          final.view = server.view.followCommit req.leaderCommit)
      (fun _ final =>
        final.view = server.view.followCommit req.leaderCommit)
      server := by
  simp only [finishAppend, wp_bind, wp_modify]
  refine wp_persistCircular (fun final same => ?_) (fun _ final same => ?_)
  · exact ⟨rfl, same.trans (followCommit_view server req.leaderCommit)⟩
  · exact same.trans (followCommit_view server req.leaderCommit)

theorem completeAppend_spec
    (pending : PendingAppend)
    (server : Server) :
    wp (completeAppend pending)
      (fun rsp final =>
        rsp = { term := pending.rspTerm, success := true } ∧
          final.view = server.view.complete pending)
      (fun _ final => final.view = server.view.complete pending)
      server := by
  have finished :=
    finishAppend_spec pending.req pending.rspTerm
      (server.buildLog pending.req pending.newTail pending.skipEntries)
  rw [buildLog_view] at finished
  simp only [completeAppend, wp_bind, wp_modify]
  exact finished

theorem handleAppendEntriesFinish_spec
    (pending : PendingAppend)
    (copied : Bool)
    (server : Server) :
    wp (handleAppendEntriesFinish pending copied)
      (fun rsp final =>
        rsp = { term := pending.rspTerm, success := copied } ∧
          final.view =
            if copied then server.view.complete pending else server.view)
      (fun _ final =>
        copied ∧ final.view = server.view.complete pending) server := by
  cases copied with
  | false =>
      exact ⟨rfl, rfl⟩
  | true =>
      refine wp_mono (completeAppend_spec pending server) ?_ ?_
      · exact fun _ _ ends => ends
      · exact fun _ _ ends => ⟨rfl, ends⟩

theorem acceptAppend_spec
    {view : View}
    {req : AppendEntriesRequest}
    {server : Server}
    (met : view.meet req.term = server.view)
    (accepts : server.view.Accepts req) :
    wp (acceptAppend req)
      (fun progress final => view.Handled req (some progress) final.view)
      (fun _ final => view.Handled req none final.view) server := by
  have followed :
      ¬ server.view.Extends req →
      wp (finishAppend req server.raft.currentTerm)
        (fun rsp final =>
          view.Handled req (some (.replied rsp)) final.view)
        (fun _ final => view.Handled req none final.view) server := by
    intro noData
    rw [← met] at accepts noData
    refine wp_mono (finishAppend_spec req _ server) ?_ ?_
    · rintro _ final ⟨rfl, viewed⟩
      rw [viewed, ← met]
      refine .followed accepts noData (Or.inr ?_)
      rw [met]
      rfl
    · intro _ final viewed
      rw [viewed, ← met]
      exact .followed accepts noData (Or.inl rfl)
  simp only [acceptAppend, modifyRing, wp_bind, wp_get, wp_ite, wp_modify,
    wp_pure]
  split
  · rename_i covered
    refine followed fun brings => ?_
    have more := brings.2.2
    simp only [Server.view] at more
    omega
  · rename_i notCovered
    split
    · rename_i data
      have brings : server.view.Extends req := by
        refine ⟨data.1, data.2, ?_⟩
        simp only [Server.view]
        omega
      rw [← met] at accepts brings
      split
      · rename_i alreadyCopied
        refine wp_mono (completeAppend_spec (server.view.pending req) _) ?_ ?_
        · rintro _ final ⟨rfl, viewed⟩
          have finalView :
              final.view = server.view.complete (server.view.pending req) :=
            viewed
          rw [finalView, ← met]
          exact .completed accepts brings alreadyCopied (Or.inr rfl)
        · intro _ final viewed
          have finalView :
              final.view = server.view.complete (server.view.pending req) :=
            viewed
          rw [finalView, ← met]
          exact .completed accepts brings alreadyCopied (Or.inl rfl)
      · rename_i notCopied
        have copies :=
          View.Handled.copying accepts brings (by simpa using notCopied)
        rw [met] at copies
        exact copies
    · rename_i noData
      exact followed fun brings => noData ⟨brings.1, brings.2.1⟩

/-- The first section does one of the things `Handled` lists. -/
theorem handleAppendEntriesRequest_spec
    (req : AppendEntriesRequest)
    (server : Server) :
    wp (handleAppendEntriesRequest req)
      (fun progress final =>
        server.view.Handled req (some progress) final.view)
      (fun _ final => server.view.Handled req none final.view) server := by
  simp only [handleAppendEntriesRequest, wp_bind, wp_discard]
  refine wp_mono (updateTerm_spec req.term server) ?_ ?_
  · rintro _ middle ⟨-, bumps⟩
    have met :
        server.view.meet req.term = (middle.stepDown req).view := by
      rw [stepDown_view, bumps]
      rfl
    simp only [wp_modify, wp_get, wp_ite, wp_pure]
    split
    · rw [← met]
      refine .refused rfl ?_
      rw [met]
      rfl
    · rename_i passes
      have conflict := prevLogConflict_spec (middle.stepDown req) req
      cases checked : prevLogConflict (middle.stepDown req) req with
      | some rsp =>
          rw [checked] at conflict
          simp only [wp_pure]
          rw [← met]
          exact .refused conflict.2.1 (by rw [met]; exact conflict.2.2)
      | none =>
          rw [checked] at conflict
          refine acceptAppend_spec met ⟨?_, ?_, conflict⟩
          · exact by_contra fun other => passes (Or.inl other)
          · have notStale : ¬ req.term < (middle.stepDown req).view.term :=
              fun stale => passes (Or.inr stale)
            have reached : req.term ≤ (middle.stepDown req).view.term := by
              rw [← met]
              exact View.le_term_meet _ _
            omega
  · rintro exn final ⟨higher, bumps⟩
    rw [bumps]
    exact .demotionThrew higher

end NvmeofRaft
