import NvmeofRaft.LogEffect

namespace NvmeofRaft

/-!
# What a step does to term, role and votes

A step leaves the three alone, or it is a demotion, the step-down of a
candidate, a new candidacy, a recorded vote, a granted vote, a won election or
a restart.
-/

/-- Term, role and votes. -/
structure Ballot where
  term : Nat
  role : ServerState
  votes : List Nat

/-- The ballot of a view. -/
def View.ballot (view : View) : Ballot where
  term := view.term
  role := view.role
  votes := view.votes

/-- What a step does to the ballot of a node. -/
inductive Node.BallotEffect
    (node : Node) :
    Act → Ballot → Prop where
  | kept
      {act : Act} :
      BallotEffect node act node.view.ballot
  | demoted
      {act : Act}
      {msgTerm : Nat} :
      node.view.term < msgTerm →
      ((∃ index rsp, act = .voteReply index rsp ∧ rsp.term = msgTerm) ∨
        (∃ src req, act = .handleVote src req ∧ req.term = msgTerm) ∨
        ∃ src req, act = .handleAppend src req ∧ req.term = msgTerm) →
      BallotEffect node act (node.view.demote msgTerm).ballot
  | steppedDown
      {src : Nat}
      {req : AppendEntriesRequest} :
      req.term = node.view.term →
      node.view.role = .candidate →
      BallotEffect node (.handleAppend src req)
        { node.view.ballot with role := .follower }
  | elected
      {state : ServerState}
      {load : Nat → Option (List UInt8)} :
      node.main = .timeout state →
      BallotEffect node (.main true load) node.view.elect.ballot
  | recorded
      {index peerIndex : Nat}
      {req : RequestVoteRequest}
      {rsp : RequestVoteResponse} :
      node.threads[index]? = some (.voteCall peerIndex req) →
      rsp.term = req.term →
      rsp.term ≤ node.view.term →
      rsp.voteGranted = true →
      BallotEffect node (.voteReply index rsp)
        (node.view.record peerIndex).ballot
  | granted
      {src : Nat}
      {req : RequestVoteRequest} :
      (node.view.bump req.term).grants req = true →
      BallotEffect node (.handleVote src req)
        ((node.view.bump req.term).withVote req.candidateId).ballot
  | won
      {expired : Bool}
      {load : Nat → Option (List UInt8)} :
      node.main = .becomeLeader →
      node.view.quorumLeft = 0 →
      BallotEffect node (.main expired load)
        { node.view.ballot with role := .leader }
  | restarted
      {kernel : KernelAnswers}
      {cacheLost : Bool}
      {ballot : Ballot} :
      ballot = node.view.constructed.ballot ∨
        ballot = node.view.constructed.started.ballot →
      BallotEffect node (.restart kernel cacheLost) ballot

section

variable {mapped : Nat → Prop} {node after : Node} {act : Act}
variable {outputs : Outputs}

/-- A message may demote the node. -/
theorem bump_ballotEffect
    {msgTerm : Nat}
    (carries :
      (∃ index rsp, act = .voteReply index rsp ∧ rsp.term = msgTerm) ∨
        (∃ src req, act = .handleVote src req ∧ req.term = msgTerm) ∨
        ∃ src req, act = .handleAppend src req ∧ req.term = msgTerm) :
    node.BallotEffect act (node.view.bump msgTerm).ballot := by
  by_cases higher : node.view.term < msgTerm
  · rw [View.bump_of_lt higher]
    exact .demoted higher carries
  · rw [View.bump_of_le (Nat.not_lt.mp higher)]
    exact .kept

/-- A vote reply changes the ballot as its effect says. -/
theorem reply_ballotEffect
    {index peerIndex : Nat}
    {req : RequestVoteRequest}
    {rsp : RequestVoteResponse}
    (found : node.threads[index]? = some (.voteCall peerIndex req)) :
    node.BallotEffect (.voteReply index rsp)
      (node.view.reply peerIndex req rsp).ballot := by
  unfold View.reply
  split
  · rename_i recorded
    exact .recorded found recorded.2.1 (Nat.not_lt.mp recorded.1)
      recorded.2.2
  · exact bump_ballotEffect (Or.inl ⟨index, rsp, rfl, rfl⟩)

theorem voted_ballotEffect
    {src : Nat}
    {req : RequestVoteRequest} :
    node.BallotEffect (.handleVote src req) (node.view.voted req).ballot := by
  unfold View.voted
  dsimp only
  split
  · exact .granted ‹_›
  · exact bump_ballotEffect (Or.inr (Or.inl ⟨src, req, rfl, rfl⟩))

theorem meet_ballotEffect
    {src : Nat}
    {req : AppendEntriesRequest} :
    node.BallotEffect (.handleAppend src req)
      (node.view.meet req.term).ballot := by
  by_cases higher : node.view.term < req.term
  · have met : node.view.meet req.term = node.view.demote req.term := by
      unfold View.meet View.stepDown
      rw [View.bump_of_lt higher]
      exact if_neg fun both => by cases both.2
    rw [met]
    exact .demoted higher (Or.inr (Or.inr ⟨src, req, rfl, rfl⟩))
  · unfold View.meet View.stepDown
    rw [View.bump_of_le (Nat.not_lt.mp higher)]
    split
    · rename_i steps
      exact .steppedDown steps.1 steps.2
    · exact .kept

/-- Taking up entries leaves the ballot alone. -/
theorem View.complete_ballot
    (view : View)
    (pending : PendingAppend) :
    (view.complete pending).ballot = view.ballot := by
  unfold View.complete View.build View.followCommit
  split <;> rfl

theorem handled_ballotEffect
    {src : Nat}
    {req : AppendEntriesRequest}
    {result : Option AppendProgress}
    {view : View}
    (handled : node.view.Handled req result view) :
    node.BallotEffect (.handleAppend src req) view.ballot := by
  cases handled with
  | demotionThrew _ =>
      exact bump_ballotEffect (Or.inr (Or.inr ⟨src, req, rfl, rfl⟩))
  | refused _ _ =>
      exact meet_ballotEffect
  | followed _ _ _ =>
      exact meet_ballotEffect
  | copying _ _ _ =>
      exact meet_ballotEffect
  | completed _ _ _ _ =>
      rw [View.complete_ballot]
      exact meet_ballotEffect

/-- The effect of a step on term, role and votes. -/
theorem Node.Step.ballotEffect
    (step : node.Step mapped act after outputs) :
    node.BallotEffect act after.view.ballot := by
  cases step with
  | timeoutFired pc =>
      exact .elected pc
  | timeoutThrew pc =>
      exact .elected pc
  | electionWon pc won _ =>
      exact .won pc won
  | electionThrew pc won _ =>
      exact .won pc won
  | voteCounted found =>
      exact reply_ballotEffect found
  | voteCountThrew found =>
      exact reply_ballotEffect found
  | appendAnswered _ booked =>
      cases booked <;> exact .kept
  | voteHandled =>
      exact voted_ballotEffect
  | @voteHandlerThrew src req view viewed =>
      rcases viewed with rfl | rfl
      · exact bump_ballotEffect (Or.inr (Or.inl ⟨src, req, rfl, rfl⟩))
      · exact voted_ballotEffect
  | appendReplied handled =>
      exact handled_ballotEffect handled
  | appendBegun handled =>
      exact handled_ballotEffect handled
  | appendHandlerThrew handled =>
      exact handled_ballotEffect handled
  | appendFinished _ viewed =>
      dsimp only
      rw [viewed]
      split
      · rw [View.complete_ballot]
        exact .kept
      · exact .kept
  | appendFinishThrew _ =>
      dsimp only
      rw [View.complete_ballot]
      exact .kept
  | restarted =>
      exact .restarted (Or.inr rfl)
  | restartThrew =>
      exact .restarted (Or.inl rfl)
  | _ =>
      exact .kept

theorem View.bump_term
    (view : View)
    (msgTerm : Nat) :
    (view.bump msgTerm).term = max view.term msgTerm := by
  unfold View.bump
  split
  · show msgTerm = max view.term msgTerm
    omega
  · omega

/-- No step but a restart lowers the term. -/
theorem Node.Step.term_le
    (step : node.Step mapped act after outputs)
    (noRestart : ∀ kernel cacheLost, act ≠ .restart kernel cacheLost) :
    node.view.term ≤ after.view.term := by
  have effect := step.ballotEffect
  generalize same : after.view.ballot = ballot at effect
  have term : after.view.term = ballot.term := congrArg Ballot.term same
  rw [term]
  cases effect with
  | kept =>
      exact le_refl _
  | demoted higher _ =>
      exact Nat.le_of_lt higher
  | steppedDown _ _ =>
      exact le_refl _
  | elected _ =>
      exact Nat.le_succ _
  | recorded _ _ _ _ =>
      exact le_refl _
  | granted _ =>
      exact (le_max_left _ _).trans (le_of_eq (View.bump_term _ _).symm)
  | won _ _ =>
      exact le_refl _
  | restarted _ =>
      exact absurd rfl (noRestart _ _)

/-- The act delivers a message of a higher term. -/
def Node.demotes
    (node : Node) :
    Act → Bool
  | .voteReply _ rsp => decide (node.view.term < rsp.term)
  | .handleVote _ req => decide (node.view.term < req.term)
  | .handleAppend _ req => decide (node.view.term < req.term)
  | _ => false

/-- `main_loop` fires its election timeout. -/
def Node.fires
    (node : Node) :
    Act → Bool
  | .main expired _ =>
      match node.main with
      | .timeout _ => expired
      | _ => false
  | _ => false

/-- `main_loop` wins an election. -/
def Node.wins
    (node : Node) :
    Act → Bool
  | .main _ _ =>
      decide (node.main = .becomeLeader) &&
        decide (node.view.quorumLeft = 0)
  | _ => false

/-- A candidate meets an append request of its own term. -/
def Node.stepsDown
    (node : Node) :
    Act → Bool
  | .handleAppend _ req =>
      decide (req.term = node.view.term) &&
        decide (node.view.role = .candidate)
  | _ => false

/-- A step of none of these kinds keeps term and role. -/
theorem Node.Step.keeps_role
    (step : node.Step mapped act after outputs)
    (noRestart : ∀ kernel cacheLost, act ≠ .restart kernel cacheLost)
    (notDemoted : node.demotes act = false)
    (notFired : node.fires act = false)
    (notWon : node.wins act = false)
    (notDown : node.stepsDown act = false) :
    after.view.role = node.view.role ∧ after.view.term = node.view.term := by
  have effect := step.ballotEffect
  generalize same : after.view.ballot = ballot at effect
  have role : after.view.role = ballot.role := congrArg Ballot.role same
  have term : after.view.term = ballot.term := congrArg Ballot.term same
  rw [role, term]
  cases effect with
  | kept =>
      exact ⟨rfl, rfl⟩
  | demoted higher carries =>
      rcases carries with ⟨_, _, rfl, rfl⟩ | ⟨_, _, rfl, rfl⟩ | ⟨_, _, rfl, rfl⟩
        <;> simp [Node.demotes, higher] at notDemoted
  | steppedDown sameTerm candidate =>
      simp [Node.stepsDown, sameTerm, candidate] at notDown
  | elected pc =>
      simp [Node.fires, pc] at notFired
  | recorded _ _ _ _ =>
      exact ⟨rfl, rfl⟩
  | granted _ =>
      simp only [Node.demotes, decide_eq_false_iff_not] at notDemoted
      rw [View.bump_of_le (Nat.not_lt.mp notDemoted)]
      exact ⟨rfl, rfl⟩
  | won pc won =>
      simp [Node.wins, pc, won] at notWon
  | restarted _ =>
      exact absurd rfl (noRestart _ _)

end

end NvmeofRaft
