import NvmeofRaft.Authenticity
import NvmeofRaft.ClusterStep
import NvmeofRaft.DurableRuns
import NvmeofRaft.Majority

namespace NvmeofRaft

/-!
# Ballots

Every vote that a node has given is remembered with its term, beside the
state.  A node gives one vote in a term, and a leader has the votes of a
majority, as long as the recorded votes that are counted answer requests of
the current term.
-/

namespace View

variable {view : View}

/-- The own slot, cleared, holds no vote. -/
theorem set_own_vote
    (view : View) :
    (view.votes.set view.index 0).getD view.index 0 = 0 := by
  rw [List.getD_eq_getElem?_getD, List.getElem?_set_self']
  cases view.votes[view.index]? <;> rfl

theorem demote_vote
    (msgTerm : Nat) :
    (view.demote msgTerm).vote = 0 :=
  set_own_vote view

/-- A vote recorded for another member leaves the own vote alone. -/
theorem record_vote
    {peerIndex : Nat}
    (other : peerIndex ≠ view.index) :
    (view.record peerIndex).vote = view.vote := by
  simp [View.record, View.vote, List.getD_eq_getElem?_getD,
    List.getElem?_set_ne other]

theorem withVote_vote
    {candidateId : Nat}
    (listed : view.index < view.votes.length) :
    (view.withVote candidateId).vote = candidateId := by
  simp [View.withVote, View.vote, listed]

/-- A demotion may come before the vote. -/
theorem bump_shape
    (view : View)
    (msgTerm : Nat) :
    (view.bump msgTerm).index = view.index ∧
      (view.bump msgTerm).votes.length = view.votes.length := by
  unfold View.bump
  split
  · exact ⟨rfl, List.length_set⟩
  · exact ⟨rfl, rfl⟩

end View

namespace Node

variable {mapped : Nat → Prop} {node after : Node} {act : Act}
variable {outputs : Outputs}

/-- The terms at which the node was restarted. -/
def restarts (node : Node) : List Nat :=
  node.history.filterMap fun
    | .restarted term => some term
    | _ => none

/-- The node has lost its memory at least once. -/
def retired (node : Node) : Bool :=
  !node.restarts.isEmpty

/-- The highest term at which the node was restarted. -/
def floor (node : Node) : Nat :=
  node.restarts.foldr max 0

/-- The highest term the node has been in. -/
def horizon (node : Node) : Nat :=
  max node.view.term node.floor

/-- Only a restart adds one to the history. -/
theorem Step.restarts_eq
    (step : node.Step mapped act after outputs)
    (noRestart : ∀ kernel cacheLost, act ≠ .restart kernel cacheLost) :
    after.restarts = node.restarts := by
  have accepted :
      ∀ before view req success,
        (acceptEvents before view req success ++ node.history).filterMap
            (fun
              | .restarted term => some term
              | _ => none) = node.restarts := by
    intro before view req success
    unfold acceptEvents
    split <;> rfl
  cases step with
  | voteHandled =>
      unfold restarts grantEvents
      dsimp only
      split <;> rfl
  | appendReplied _ =>
      exact accepted _ _ _ _
  | appendHandlerThrew _ =>
      exact accepted _ _ _ _
  | appendFinished _ _ =>
      exact accepted _ _ _ _
  | appendFinishThrew _ =>
      exact accepted _ _ _ _
  | restarted =>
      exact absurd rfl (noRestart _ _)
  | restartThrew =>
      exact absurd rfl (noRestart _ _)
  | _ =>
      rfl

/-- Only a restart retires a node. -/
theorem Step.retired_eq
    (step : node.Step mapped act after outputs)
    (noRestart : ∀ kernel cacheLost, act ≠ .restart kernel cacheLost) :
    after.retired = node.retired := by
  rw [retired, retired, step.restarts_eq noRestart]

theorem Step.floor_eq
    (step : node.Step mapped act after outputs)
    (noRestart : ∀ kernel cacheLost, act ≠ .restart kernel cacheLost) :
    after.floor = node.floor := by
  rw [floor, floor, step.restarts_eq noRestart]

/-- What a restart leaves of the votes. -/
theorem Step.restart_cleared
    {kernel : KernelAnswers}
    {cacheLost : Bool}
    (step : node.Step mapped (.restart kernel cacheLost) after outputs) :
    after.retired = true ∧ after.floor = node.horizon ∧
      after.view.term = 0 ∧ after.view.vote = 0 ∧
        after.view.role = .follower ∧ after.threads = [] := by
  have noVote : node.view.constructed.vote = 0 := by
    simp only [View.constructed, View.vote, List.getD_eq_getElem?_getD,
      List.getElem?_map]
    cases node.view.votes[node.view.index]? <;> rfl
  cases step with
  | restarted =>
      exact ⟨rfl, rfl, rfl, View.set_own_vote _, rfl, rfl⟩
  | restartThrew =>
      exact ⟨rfl, rfl, rfl, noVote, rfl, rfl⟩

/-- A restart forgets term, vote, role and threads. -/
theorem Step.cleared
    (step : node.Step mapped act after outputs)
    (restarts : act.isRestart = true) :
    after.retired = true ∧ after.floor = node.horizon ∧
      after.view.term = 0 ∧ after.view.vote = 0 ∧
        after.view.role = .follower ∧ after.threads = [] := by
  cases act with
  | restart kernel cacheLost =>
      exact step.restart_cleared
  | _ =>
      cases restarts

/-- The highest term never falls, not even by a restart. -/
theorem Step.horizon_le
    (step : node.Step mapped act after outputs) :
    node.horizon ≤ after.horizon := by
  by_cases restarts : ∃ kernel cacheLost, act = .restart kernel cacheLost
  · obtain ⟨kernel, cacheLost, rfl⟩ := restarts
    rw [← step.restart_cleared.2.1]
    exact le_max_right _ _
  · have noRestart : ∀ kernel cacheLost, act ≠ .restart kernel cacheLost :=
      fun kernel cacheLost same => restarts ⟨kernel, cacheLost, same⟩
    unfold horizon
    rw [step.floor_eq noRestart]
    exact max_le_max_right _ (step.term_le noRestart)

/-- A node that has not restarted has the floor zero. -/
theorem floor_of_active
    (active : node.retired = false) :
    node.floor = 0 := by
  have none : node.restarts = [] := by
    simpa [retired] using active
  rw [floor, none]
  rfl

/-- The horizon of a node that has not restarted is its term. -/
theorem horizon_of_active
    (active : node.retired = false) :
    node.horizon = node.view.term := by
  rw [horizon, floor_of_active active]
  exact Nat.max_zero _

end Node

section

variable {mapped : Nat → Prop} {node after : Node} {act : Act}
variable {outputs : Outputs}

/-- Vote calls go to the other members. -/
def Node.CallsPeers (node : Node) : Prop :=
  ∀ thread, thread ∈ node.threads → thread.ConcernsPeer node.view.index

/-- Within a term a given vote is not given again. -/
theorem Node.Step.vote_kept
    (step : node.Step mapped act after outputs)
    (noRestart : ∀ kernel cacheLost, act ≠ .restart kernel cacheLost)
    (listed : node.view.index < node.view.votes.length)
    (sameIndex : after.view.index = node.view.index)
    (peers : node.CallsPeers) :
    node.view.term < after.view.term ∨
      after.view.term = node.view.term ∧
        (node.view.vote = 0 ∨ after.view.vote = node.view.vote) := by
  have effect := step.ballotEffect
  generalize same : after.view.ballot = ballot at effect
  have term : after.view.term = ballot.term := congrArg Ballot.term same
  rw [term]
  cases effect with
  | kept =>
      exact Or.inr ⟨rfl, Or.inr (View.vote_of_ballot same sameIndex)⟩
  | demoted higher _ =>
      exact Or.inl higher
  | steppedDown _ _ =>
      refine Or.inr ⟨rfl, Or.inr ?_⟩
      exact @View.vote_of_ballot { node.view with role := .follower } _ same
        sameIndex
  | elected _ =>
      exact Or.inl (Nat.lt_succ_self _)
  | recorded found _ _ _ =>
      refine Or.inr ⟨rfl, Or.inr ?_⟩
      rw [View.vote_of_ballot same sameIndex]
      exact View.record_vote (peers _ (List.mem_of_getElem? found))
  | @granted src req granted =>
      by_cases higher : node.view.term < req.term
      · exact Or.inl (higher.trans_le
          ((le_max_right _ _).trans (le_of_eq (View.bump_term _ _).symm)))
      · rw [View.bump_of_le (Nat.not_lt.mp higher)] at same granted ⊢
        refine Or.inr ⟨rfl, ?_⟩
        rcases View.grants_free granted with free | again
        · exact Or.inl free
        · rw [View.vote_of_ballot same sameIndex, View.withVote_vote listed]
          exact Or.inr again.symm
  | won _ _ =>
      refine Or.inr ⟨rfl, Or.inr ?_⟩
      exact @View.vote_of_ballot { node.view with role := .leader } _ same
        sameIndex
  | restarted _ =>
      exact absurd rfl (noRestart _ _)

/-- How the votes for a node come to be counted. -/
inductive Node.Tally
    (node : Node)
    (after : View) :
    Act → Prop where
  | kept
      {act : Act} :
      node.view.vote = node.view.id →
      after.term = node.view.term →
      after.votes = node.view.votes →
      Tally node after act
  | recorded
      {index peerIndex : Nat}
      {req : RequestVoteRequest}
      {rsp : RequestVoteResponse} :
      node.threads[index]? = some (.voteCall peerIndex req) →
      rsp.term = req.term →
      rsp.term ≤ node.view.term →
      rsp.voteGranted = true →
      node.view.vote = node.view.id →
      after.term = node.view.term →
      after.votes = node.view.votes.set peerIndex node.view.id →
      Tally node after (.voteReply index rsp)
  | elected
      {load : Nat → Option (List UInt8)} :
      after.term = node.view.term + 1 →
      after.votes = node.view.elect.votes →
      Tally node after (.main true load)

/-- A node with its own vote had it before, or has just become a candidate. -/
theorem Node.Step.tally
    (step : node.Step mapped act after outputs)
    (noRestart : ∀ kernel cacheLost, act ≠ .restart kernel cacheLost)
    (named : node.view.id ≠ 0)
    (listed : node.view.index < node.view.votes.length)
    (sameIndex : after.view.index = node.view.index)
    (peers : node.CallsPeers)
    (foreign :
      ∀ src req, act = .handleVote src req →
        req.candidateId ≠ node.view.id)
    (own : after.view.vote = node.view.id) :
    node.Tally after.view act := by
  have effect := step.ballotEffect
  generalize same : after.view.ballot = ballot at effect
  have term : after.view.term = ballot.term := congrArg Ballot.term same
  have votes : after.view.votes = ballot.votes := congrArg Ballot.votes same
  cases effect with
  | kept =>
      rw [View.vote_of_ballot same sameIndex] at own
      exact .kept own term votes
  | demoted _ _ =>
      rw [View.vote_of_ballot same sameIndex, View.demote_vote] at own
      exact absurd own.symm named
  | steppedDown _ _ =>
      rw [@View.vote_of_ballot { node.view with role := .follower } _ same
        sameIndex] at own
      exact .kept own term votes
  | elected _ =>
      exact .elected term votes
  | recorded found sameTerm notHigher granted =>
      rw [View.vote_of_ballot same sameIndex,
        View.record_vote (peers _ (List.mem_of_getElem? found))] at own
      exact .recorded found sameTerm notHigher granted own term votes
  | @granted src req granted =>
      obtain ⟨bumpIndex, bumpLength⟩ := View.bump_shape node.view req.term
      rw [View.vote_of_ballot same (sameIndex.trans bumpIndex.symm),
        View.withVote_vote (by rw [bumpIndex, bumpLength]; exact listed)]
        at own
      exact absurd own (foreign src req rfl)
  | won _ _ =>
      rw [@View.vote_of_ballot { node.view with role := .leader } _ same
        sameIndex] at own
      exact .kept own term votes
  | restarted _ =>
      exact absurd rfl (noRestart _ _)

/-- A vote answer is recorded for the node that asked. -/
def Node.records
    (node : Node)
    (req : RequestVoteRequest)
    (rsp : RequestVoteResponse) :
    Bool :=
  rsp.voteGranted && decide (rsp.term = req.term) &&
    decide (rsp.term ≤ node.view.term)

/--
An election is won by a node that has its own vote, and a vote that is recorded
while the node has its own vote answers a request of the current term.
-/
def Node.keepsBallot
    (node : Node) :
    Act → Bool
  | .main _ _ =>
      !(decide (node.main = .becomeLeader) &&
          decide (node.view.quorumLeft = 0)) ||
        decide (node.view.vote = node.view.id)
  | .voteReply index rsp =>
      match node.threads[index]? with
      | some (.voteCall _ req) =>
          !(node.records req rsp && decide (node.view.vote = node.view.id)) ||
            decide (req.term = node.view.term)
      | _ => true
  | _ => true

/--
A node that has lost its memory grants no vote and does not become a candidate.
-/
def Node.abstains
    (node : Node)
    (act : Act) :
    Bool :=
  !node.retired ||
    match act with
    | .handleVote _ req => !(node.view.bump req.term).grants req
    | act => !node.fires act

theorem Node.vote_own_of_wins
    (keeps : node.keepsBallot act = true)
    (wins : node.wins act = true) :
    node.view.vote = node.view.id := by
  cases act with
  | main expired load =>
      simp only [Node.wins] at wins
      simpa [Node.keepsBallot, wins] using keeps
  | _ =>
      cases wins

/-- A retired node stays without a vote and never leads. -/
theorem Node.Step.retired_quiet
    (step : node.Step mapped act after outputs)
    (noRestart : ∀ kernel cacheLost, act ≠ .restart kernel cacheLost)
    (keeps : node.keepsBallot act = true)
    (abstains : node.abstains act = true)
    (named : node.view.id ≠ 0)
    (sameIndex : after.view.index = node.view.index)
    (peers : node.CallsPeers)
    (retired : node.retired = true)
    (quiet : node.view.vote = 0 ∧ node.view.role ≠ .leader) :
    after.view.vote = 0 ∧ after.view.role ≠ .leader := by
  have effect := step.ballotEffect
  generalize same : after.view.ballot = ballot at effect
  have role : after.view.role = ballot.role := congrArg Ballot.role same
  rw [role]
  simp only [Node.abstains, retired, Bool.not_true, Bool.false_or]
    at abstains
  cases effect with
  | kept =>
      rw [View.vote_of_ballot same sameIndex]
      exact quiet
  | demoted _ _ =>
      rw [View.vote_of_ballot same sameIndex]
      exact ⟨View.demote_vote _, ServerState.noConfusion⟩
  | steppedDown _ _ =>
      rw [@View.vote_of_ballot { node.view with role := .follower } _ same
        sameIndex]
      exact ⟨quiet.1, ServerState.noConfusion⟩
  | elected pc =>
      simp [Node.fires, pc] at abstains
  | recorded found _ _ _ =>
      rw [View.vote_of_ballot same sameIndex,
        View.record_vote (peers _ (List.mem_of_getElem? found))]
      exact quiet
  | granted granted =>
      dsimp only at abstains
      rw [granted] at abstains
      cases abstains
  | won pc won =>
      have own := Node.vote_own_of_wins keeps
        (by simp [Node.wins, pc, won])
      exact absurd (own.symm.trans quiet.1) named
  | restarted _ =>
      exact absurd rfl (noRestart _ _)

/-- Where the won elections of a history come from. -/
theorem Node.Step.leader_event
    {term : Nat}
    (step : node.Step mapped act after outputs)
    (held : .becameLeader term ∈ after.history) :
    .becameLeader term ∈ node.history ∨
      node.wins act = true ∧ term = node.view.term ∧
        node.view.quorumLeft = 0 := by
  have accepted :
      ∀ before view req success,
        .becameLeader term ∈
          acceptEvents before view req success ++ node.history →
        .becameLeader term ∈ node.history := by
    intro before view req success member
    unfold acceptEvents at member
    split at member <;> simpa using member
  cases step with
  | electionWon pc won _ =>
      rcases List.mem_cons.mp held with new | old
      · cases new
        exact Or.inr ⟨by simp [Node.wins, pc, won], rfl, won⟩
      · exact Or.inl old
  | electionThrew pc won _ =>
      rcases List.mem_cons.mp held with new | old
      · cases new
        exact Or.inr ⟨by simp [Node.wins, pc, won], rfl, won⟩
      · exact Or.inl old
  | voteSent _ =>
      exact Or.inl (by simpa using held)
  | appendCopying _ _ _ =>
      exact Or.inl (by simpa using held)
  | appendSent _ _ _ =>
      exact Or.inl (by simpa using held)
  | voteHandled =>
      refine Or.inl ?_
      dsimp only at held
      unfold grantEvents at held
      split at held <;> simpa using held
  | appendReplied _ =>
      exact Or.inl (accepted _ _ _ _ held)
  | appendHandlerThrew _ =>
      exact Or.inl (accepted _ _ _ _ held)
  | appendFinished _ _ =>
      exact Or.inl (accepted _ _ _ _ held)
  | appendFinishThrew _ =>
      exact Or.inl (accepted _ _ _ _ held)
  | restarted =>
      exact Or.inl (by simpa using held)
  | restartThrew =>
      exact Or.inl (by simpa using held)
  | _ =>
      exact Or.inl held

/-- The loop of `become_leader` counts the votes for the node. -/
theorem foldl_quorum
    (id : Nat) :
    ∀ (votes : List Nat) (quorum : Nat),
      votes.foldl
          (fun quorum vote =>
            if vote = id ∧ 0 < quorum then quorum - 1 else quorum) quorum =
        quorum - votes.count id := by
  intro votes
  induction votes with
  | nil =>
      intro quorum
      rfl
  | cons vote votes inductionHypothesis =>
      intro quorum
      rw [List.foldl_cons, inductionHypothesis, List.count_cons]
      by_cases own : vote = id
      · by_cases open_ : 0 < quorum
        · simp [own, open_]
          omega
        · simp [own, open_]
          omega
      · simp [own]

/-- With no vote missing the recorded votes are a majority. -/
theorem View.count_of_quorumLeft
    {view : View}
    (won : view.quorumLeft = 0) :
    view.votes.length / 2 + 1 ≤ view.votes.count view.id := by
  rw [View.quorumLeft, foldl_quorum] at won
  exact Nat.le_of_sub_eq_zero won

end

end NvmeofRaft
