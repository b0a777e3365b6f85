import NvmeofRaft.LogMatching

namespace NvmeofRaft

/-!
# Acknowledgement and commitment

What a node adds to the votes and to the acknowledged entries by one step, and
the conditions under which its acknowledgements and its commit index speak of
the log of the leader.
-/

section

variable {mapped : Nat → Prop} {node after : Node} {act : Act}
variable {outputs : Outputs}

/-- How a node comes to have a vote. -/
inductive Node.VoteOrigin
    (node : Node)
    (after : View) :
    Act → Prop where
  | kept
      {act : Act} :
      after.vote = node.view.vote →
      after.term = node.view.term →
      VoteOrigin node after act
  | own
      {act : Act} :
      after.vote = node.view.id →
      after.term = node.view.term + 1 →
      VoteOrigin node after act
  | granted
      {src : Nat}
      {req : RequestVoteRequest} :
      node.view.logOk req = true →
      after.vote = req.candidateId →
      after.term = req.term →
      VoteOrigin node after (.handleVote src req)

/-- A vote of a node goes back to a candidacy or to a request. -/
theorem Node.Step.vote_origin
    (step : node.Step mapped act after outputs)
    (noRestart : ∀ kernel cacheLost, act ≠ .restart kernel cacheLost)
    (listed : node.view.index < node.view.votes.length)
    (sameIndex : after.view.index = node.view.index)
    (peers : node.CallsPeers)
    (voted : after.view.vote ≠ 0) :
    node.VoteOrigin after.view act := by
  have effect := step.ballotEffect
  generalize same : after.view.ballot = ballot at effect
  have term : after.view.term = ballot.term := congrArg Ballot.term same
  cases effect with
  | kept =>
      exact .kept (View.vote_of_ballot same sameIndex) term
  | demoted _ _ =>
      rw [View.vote_of_ballot same sameIndex, View.demote_vote] at voted
      exact absurd rfl voted
  | steppedDown _ _ =>
      exact .kept (@View.vote_of_ballot { node.view with role := .follower }
        _ same sameIndex) term
  | elected _ =>
      refine .own ?_ term
      rw [View.vote_of_ballot same sameIndex]
      exact View.elect_vote listed
  | recorded found _ _ _ =>
      refine .kept ?_ term
      rw [View.vote_of_ballot same sameIndex]
      exact View.record_vote (peers _ (List.mem_of_getElem? found))
  | @granted src req granted =>
      obtain ⟨bumpIndex, bumpLength⟩ := View.bump_shape node.view req.term
      have sameTerm : req.term = (node.view.bump req.term).term := by
        simp only [View.grants, Bool.and_eq_true,
          decide_eq_true_eq] at granted
        exact granted.1.1
      refine .granted ?_ ?_ (term.trans sameTerm.symm)
      · obtain ⟨_, _, _, bumped⟩ := node.view.revoted_bump req.term
        simp only [View.grants, Bool.and_eq_true] at granted
        have ok := granted.1.2
        rw [bumped] at ok
        exact ok
      · rw [View.vote_of_ballot same (sameIndex.trans bumpIndex.symm)]
        exact View.withVote_vote (by rw [bumpIndex, bumpLength]; exact listed)
  | won _ _ =>
      exact .kept (@View.vote_of_ballot { node.view with role := .leader }
        _ same sameIndex) term
  | restarted _ =>
      exact absurd rfl (noRestart _ _)

/-- The log comparison of the vote handler, between full logs. -/
theorem View.endsLater_of_logOk
    {view : View}
    {full log : List Nat}
    {req : RequestVoteRequest}
    (holds : view.Holds full)
    (ok : view.logOk req = true)
    (lastIndex : req.lastLogIndex = log.length)
    (lastTerm : req.lastLogTerm = log.getLastD 0) :
    EndsLater log full := by
  have tail := holds.tail
  simp only [View.logOk, Bool.or_eq_true, Bool.and_eq_true,
    decide_eq_true_eq, holds.lastTerm, lastIndex, lastTerm] at ok
  rcases ok with higher | ⟨same, longer⟩
  · exact Or.inl higher
  · exact Or.inr ⟨same.symm, by omega⟩

theorem endsLater_refl
    (log : List Nat) :
    EndsLater log log :=
  Or.inr ⟨rfl, le_refl _⟩

end

/-- Lock B of an append worker finds the node a leader. -/
def Node.sendsAsLeader
    (node : Node) :
    Act → Bool
  | .appendSend index =>
      match node.threads[index]? with
      | some (.appendWorker _) => decide (node.view.role = .leader)
      | _ => true
  | _ => true

/--
A request that brings nothing new: its last entry, if it has one and it is
still in memory, is the one in the log, and the commit index does not move
beyond it.
-/
def View.confirmsBatch
    (view : View)
    (req : AppendEntriesRequest) :
    Bool :=
  (decide (req.numEntries = 0) || decide (req.lastIndex < view.oldest) ||
      decide (view.termAt req.lastIndex = req.terms.getLastD 0)) &&
    (decide (req.leaderCommit ≤ view.commit) ||
      decide (min req.leaderCommit (view.tail - 1) ≤ req.lastIndex))

/--
An accepted request that brings nothing new confirms the log, and a handler
finishes as a follower in the term of its request.
-/
def Node.confirms
    (node : Node) :
    Act → Bool
  | .handleAppend _ req =>
      let view := node.view.meet req.term
      !decide (view.Accepts req ∧ ¬ view.Extends req) ||
        view.confirmsBatch req
  | .handleAppendFinish index true =>
      match node.threads[index]? with
      | some (.appendHandler _ pending) =>
          decide (node.view.role = .follower ∧
            node.view.term = pending.req.term)
      | _ => true
  | _ => true

/--
A restarted node accepts append requests only of terms that it has not been
beyond before.
-/
def Node.keepsFloor
    (node : Node) :
    Act → Bool
  | .handleAppend _ req =>
      !decide ((node.view.meet req.term).Accepts req) ||
        decide (node.floor ≤ req.term)
  | _ => true

/-- The step accepts an append request and ends its handling. -/
inductive Node.TakesOver
    (node after : Node) :
    Act → AppendEntriesRequest → Prop where
  | confirmed
      {src : Nat}
      {req : AppendEntriesRequest} :
      (node.view.meet req.term).Accepts req →
      ¬ (node.view.meet req.term).Extends req →
      after.view =
        (node.view.meet req.term).followCommit req.leaderCommit →
      TakesOver node after (.handleAppend src req) req
  | completed
      {src : Nat}
      {req : AppendEntriesRequest} :
      (node.view.meet req.term).Accepts req →
      (node.view.meet req.term).Extends req →
      req.dataAlreadyCopied = true →
      after.view =
        (node.view.meet req.term).complete
          ((node.view.meet req.term).pending req) →
      TakesOver node after (.handleAppend src req) req
  | finished
      {index src : Nat}
      {pending : PendingAppend} :
      node.threads[index]? = some (.appendHandler src pending) →
      after.view = node.view.complete pending →
      TakesOver node after (.handleAppendFinish index true) pending.req

/-- What a step does to the commit index. -/
inductive Node.CommitEffect
    (node after : Node) :
    Act → Prop where
  | kept
      {act : Act} :
      after.view.commit = node.view.commit →
      CommitEffect node after act
  | raised
      {expired : Bool}
      {load : Nat → Option (List UInt8)} :
      node.view.CanCommit →
      after.view = { node.view with commit := node.view.majority } →
      CommitEffect node after (.main expired load)
  | followed
      {act : Act}
      {req : AppendEntriesRequest} :
      node.TakesOver after act req →
      CommitEffect node after act
  | restarted
      {act : Act} :
      act.isRestart = true →
      after.view.commit = 0 →
      CommitEffect node after act

section

variable {mapped : Nat → Prop} {node after : Node} {act : Act}
variable {outputs : Outputs}

/-- The first section of the append handler, as far as it ends there. -/
theorem View.Handled.takesOver
    {src : Nat}
    {req : AppendEntriesRequest}
    {result : Option AppendProgress}
    (handled : node.view.Handled req result after.view) :
    node.TakesOver after (.handleAppend src req) req ∨
      after.view.commit = node.view.commit := by
  have met : (node.view.meet req.term).commit = node.view.commit := by
    obtain ⟨_, _, _, same⟩ := node.view.revoted_meet req.term
    rw [same]
  generalize viewed : after.view = view at handled
  cases handled with
  | demotionThrew _ =>
      obtain ⟨_, _, _, same⟩ := node.view.revoted_bump req.term
      exact Or.inr (by rw [same])
  | refused _ _ =>
      exact Or.inr met
  | followed accepts nothing _ =>
      exact Or.inl (.confirmed accepts nothing viewed)
  | copying _ _ _ =>
      exact Or.inr met
  | completed accepts brings copied _ =>
      exact Or.inl (.completed accepts brings copied viewed)

/-- A successful answer ends the handling of its request. -/
theorem Node.Step.success_takesOver
    {dst : Nat}
    {req : AppendEntriesRequest}
    {rsp : AppendEntriesResponse}
    (step : node.Step mapped act after outputs)
    (sent : (dst, Payload.appendResponse req rsp) ∈ outputs)
    (success : rsp.success = true) :
    node.TakesOver after act req := by
  have sends := step.sends sent
  dsimp only at sends
  generalize payload : Payload.appendResponse req rsp = sentPayload at sends
  cases sends with
  | appendResponse handled =>
      cases payload
      generalize viewed : after.view = view at handled
      generalize answer : some (AppendProgress.replied rsp) = result
        at handled
      cases handled with
      | demotionThrew _ =>
          cases answer
      | refused failed _ =>
          cases answer
          rw [success] at failed
          cases failed
      | followed accepts nothing _ =>
          exact .confirmed accepts nothing viewed
      | copying _ _ _ =>
          cases answer
      | completed accepts brings copied _ =>
          exact .completed accepts brings copied viewed
  | @finishedResponse index src pending copied found viewed =>
      cases payload
      cases copied with
      | true =>
          exact .finished found viewed
      | false =>
          cases success
  | _ =>
      cases payload

/-- The effect of a step on the commit index. -/
theorem Node.Step.commitEffect
    (step : node.Step mapped act after outputs) :
    node.CommitEffect after act := by
  have revoted :
      ∀ {view : View}, node.view.Revoted view →
        view.commit = node.view.commit := by
    rintro _ ⟨_, _, _, rfl⟩
    rfl
  have handled :
      ∀ {src req result}, node.view.Handled req result after.view →
        node.CommitEffect after (.handleAppend src req) := by
    intro src req result handled
    rcases handled.takesOver with takes | same
    · exact .followed takes
    · exact .kept same
  cases step with
  | commitRaised _ can =>
      exact .raised can rfl
  | voteCounted _ =>
      exact .kept (revoted (View.revoted_reply _ _ _))
  | voteCountThrew _ =>
      exact .kept (revoted (View.revoted_reply _ _ _))
  | appendAnswered _ booked =>
      cases booked <;> exact .kept rfl
  | voteHandled =>
      exact .kept (revoted (View.revoted_voted _))
  | voteHandlerThrew viewed =>
      rcases viewed with rfl | rfl
      · exact .kept (revoted (View.revoted_bump _))
      · exact .kept (revoted (View.revoted_voted _))
  | appendReplied begun =>
      exact handled begun
  | appendBegun begun =>
      exact handled begun
  | appendHandlerThrew begun =>
      exact handled begun
  | @appendFinished index src pending copied view found viewed =>
      cases copied with
      | true =>
          exact .followed (.finished found viewed)
      | false =>
          refine .kept ?_
          rw [viewed]
          rfl
  | appendFinishThrew found =>
      exact .followed (.finished found rfl)
  | restarted =>
      exact .restarted rfl rfl
  | restartThrew =>
      exact .restarted rfl rfl
  | _ =>
      exact .kept rfl

/-- A log that changes has been won, pushed or taken over. -/
theorem Node.LogEffect.takesOver
    (effect : node.LogEffect act after)
    (stays : act.isRestart = false) :
    after.view.log = node.view.log ∨ act = .slotGc ∨
      node.wins act = true ∨
      (node.view.role = .leader ∧ after.view.role = .leader ∧
        after.view.term = node.view.term ∧
          ∃ count, after.view.log =
            node.view.log ++ List.replicate count node.view.term) ∨
      ∃ req, node.TakesOver after act req := by
  cases effect with
  | kept same =>
      exact Or.inl same.log
  | won pc quorum _ _ =>
      exact Or.inr (Or.inr (Or.inl (by simp [Node.wins, pc, quorum])))
  | pushed leader viewed =>
      refine Or.inr (Or.inr (Or.inr (Or.inl ⟨leader, ?_, ?_, ?_⟩)))
      · rw [viewed]
        exact leader
      · rw [viewed]
        rfl
      · exact ⟨_, by rw [viewed]; rfl⟩
  | completed accepts brings copied viewed =>
      exact Or.inr (Or.inr (Or.inr (Or.inr
        ⟨_, .completed accepts brings copied viewed⟩)))
  | finished found viewed =>
      exact Or.inr (Or.inr (Or.inr (Or.inr ⟨_, .finished found viewed⟩)))
  | trimmed _ _ =>
      exact Or.inr (Or.inl rfl)
  | restarted _ =>
      cases stays
  | restartThrew _ _ =>
      cases stays

end

end NvmeofRaft
