import NvmeofRaft.Ballots

namespace NvmeofRaft

/-!
# Election safety

The votes given so far are a relation between voters, terms and candidates
that a step of the cluster extends by the vote of the node that moves.
-/

section

variable {n : Nat} {members : Membership n}
variable {cast : Fin n → Nat → Nat → Prop}
variable {cluster next : Cluster n} {move : Move n} {outputs : Outputs}

/-- The votes after a step: the vote of the moving node is added. -/
def castAfter
    (cast : Fin n → Nat → Nat → Prop)
    (actor : Fin n)
    (next : Cluster n) :
    Fin n → Nat → Nat → Prop :=
  fun voter term candidateId =>
    cast voter term candidateId ∨
      voter = actor ∧ candidateId ≠ 0 ∧
        term = (next.node actor).view.term ∧
          candidateId = (next.node actor).view.vote

/-- What the given votes and the messages about them have in common. -/
structure Ballots
    (members : Membership n)
    (cast : Fin n → Nat → Nat → Prop)
    (cluster : Cluster n) : Prop where
  unique :
    ∀ voter term first second,
      cast voter term first → cast voter term second → first = second
  named : ∀ voter term candidateId, cast voter term candidateId → candidateId ≠ 0
  past :
    ∀ voter term candidateId,
      cast voter term candidateId → term ≤ (cluster.node voter).horizon
  held :
    ∀ voter,
      (cluster.node voter).view.vote ≠ 0 →
      cast voter (cluster.node voter).view.term
        (cluster.node voter).view.vote
  current :
    ∀ voter candidateId,
      (cluster.node voter).retired = false →
      cast voter (cluster.node voter).view.term candidateId →
      (cluster.node voter).view.vote = candidateId
  counted :
    ∀ candidate,
      (cluster.node candidate).view.vote = members.ids candidate →
      ∀ voter : Fin n,
        (cluster.node candidate).view.votes.getD voter 0 =
            members.ids candidate →
        cast voter (cluster.node candidate).view.term (members.ids candidate)
  quiet :
    ∀ member,
      (cluster.node member).retired = true →
      (cluster.node member).view.vote = 0 ∧
        (cluster.node member).view.role ≠ .leader
  asked :
    ∀ message req,
      message ∈ cluster.net →
      message.payload = .voteRequest req →
      ∃ candidate : Fin n,
        message.src = candidate ∧ req.candidateId = members.ids candidate ∧
          message.dst ≠ candidate
  calls :
    ∀ candidate peerIndex req,
      .voteCall peerIndex req ∈ (cluster.node candidate).threads →
      req.candidateId = members.ids candidate
  peers : ∀ member, (cluster.node member).CallsPeers
  answered :
    ∀ message req rsp,
      message ∈ cluster.net →
      message.payload = .voteResponse req rsp →
      rsp.voteGranted = true →
      ∃ voter : Fin n,
        message.src = voter ∧ cast voter rsp.term req.candidateId
  won :
    ∀ leader term,
      .becameLeader term ∈ (cluster.node leader).history →
      ∃ voters : Finset (Fin n),
        IsMajority voters ∧
          ∀ voter, voter ∈ voters → cast voter term (members.ids leader)

/-- Two leaders of a term would share a voter. -/
theorem Ballots.leaders_unique
    (ballots : Ballots members cast cluster)
    {first second : Fin n}
    {term : Nat}
    (firstWon : .becameLeader term ∈ (cluster.node first).history)
    (secondWon : .becameLeader term ∈ (cluster.node second).history) :
    first = second := by
  obtain ⟨firstVoters, firstMajority, firstVoted⟩ :=
    ballots.won first term firstWon
  obtain ⟨secondVoters, secondMajority, secondVoted⟩ :=
    ballots.won second term secondWon
  obtain ⟨voter, inFirst, inSecond⟩ := firstMajority.meet secondMajority
  apply members.distinct
  exact ballots.unique voter term _ _ (firstVoted voter inFirst)
    (secondVoted voter inSecond)

/-- What the step lemmas know about the moving node. -/
structure Ballots.Stepping
    (members : Membership n)
    (cast : Fin n → Nat → Nat → Prop)
    (cluster : Cluster n)
    (move : Move n)
    (next : Cluster n)
    (outputs : Outputs) : Prop where
  sane : cluster.Sane members
  ballots : Ballots members cast cluster
  moves : cluster.Moves move next outputs
  keeps : (cluster.node move.node).keepsBallot move.act = true
  abstains : (cluster.node move.node).abstains move.act = true

namespace Ballots.Stepping

theorem id_eq
    (stepping : Stepping members cast cluster move next outputs) :
    (cluster.node move.node).view.id = members.ids move.node :=
  (stepping.sane.view move.node).1

/-- The moving node has an id. -/
theorem named
    (stepping : Stepping members cast cluster move next outputs) :
    (cluster.node move.node).view.id ≠ 0 := by
  rw [stepping.id_eq]
  exact members.nonzero move.node

/-- The moving node has a place among the votes. -/
theorem listed
    (stepping : Stepping members cast cluster move next outputs) :
    (cluster.node move.node).view.index <
      (cluster.node move.node).view.votes.length := by
  obtain ⟨-, index, length, -⟩ := stepping.sane.view move.node
  rw [index, length]
  exact move.node.isLt

theorem sameIndex
    (stepping : Stepping members cast cluster move next outputs) :
    (next.node move.node).view.index =
      (cluster.node move.node).view.index := by
  rw [(stepping.sane.view move.node).2.1,
    ((stepping.moves.sane stepping.sane).view move.node).2.1]

/-- A vote request that reaches a node is from another one. -/
theorem foreign
    (stepping : Stepping members cast cluster move next outputs)
    (src : Nat)
    (req : RequestVoteRequest)
    (act : move.act = .handleVote src req) :
    req.candidateId ≠ (cluster.node move.node).view.id := by
  obtain ⟨candidate, -, named, other⟩ := stepping.ballots.asked _ req
    (stepping.moves.vote_delivered act) rfl
  rw [named, stepping.id_eq]
  intro same
  exact other (congrArg Fin.val (members.distinct same.symm))

/-- A node that has not been restarted is not being restarted. -/
theorem stays_of_active
    (stepping : Stepping members cast cluster move next outputs)
    (active : (next.node move.node).retired = false) :
    move.act.isRestart = false := by
  by_contra restarts
  have cleared := stepping.moves.step.cleared (by simpa using restarts)
  rw [cleared.1] at active
  cases active

theorem stays_of_leader
    (stepping : Stepping members cast cluster move next outputs)
    (leader : (next.node move.node).view.role = .leader) :
    move.act.isRestart = false := by
  by_contra restarts
  have cleared := stepping.moves.step.cleared (by simpa using restarts)
  rw [cleared.2.2.2.2.1] at leader
  cases leader

theorem stays_of_thread
    (stepping : Stepping members cast cluster move next outputs)
    {thread : Thread}
    (held : thread ∈ (next.node move.node).threads) :
    move.act.isRestart = false := by
  by_contra restarts
  have cleared := stepping.moves.step.cleared (by simpa using restarts)
  rw [cleared.2.2.2.2.2] at held
  cases held

/-- A vote held after the step is the only one of its term. -/
theorem fresh
    (stepping : Stepping members cast cluster move next outputs)
    (active : (next.node move.node).retired = false)
    {candidateId : Nat}
    (before :
      cast move.node (next.node move.node).view.term candidateId) :
    (next.node move.node).view.vote = candidateId := by
  have noRestart := Act.not_restart (stepping.stays_of_active active)
  rw [stepping.moves.step.retired_eq noRestart] at active
  have bound := stepping.ballots.past _ _ _ before
  rw [Node.horizon_of_active active] at bound
  rcases stepping.moves.step.vote_kept noRestart stepping.listed
    stepping.sameIndex (stepping.ballots.peers _) with higher | ⟨same, vote⟩
  · exact absurd bound (Nat.not_le.mpr higher)
  · rw [same] at before
    have given := stepping.ballots.current _ _ active before
    rcases vote with free | kept
    · exact absurd (given.symm.trans free)
        (stepping.ballots.named _ _ _ before)
    · exact kept.trans given

/-- A restarted node neither votes nor stands. -/
theorem retired_quiet
    (stepping : Stepping members cast cluster move next outputs)
    (retired : (next.node move.node).retired = true) :
    (next.node move.node).view.vote = 0 ∧
      (next.node move.node).view.role ≠ .leader := by
  by_cases restarts : move.act.isRestart = true
  · obtain ⟨-, -, -, vote, role, -⟩ := stepping.moves.step.cleared restarts
    rw [role]
    exact ⟨vote, ServerState.noConfusion⟩
  · have noRestart := Act.not_restart (by simpa using restarts)
    rw [stepping.moves.step.retired_eq noRestart] at retired
    exact stepping.moves.step.retired_quiet noRestart stepping.keeps
      stepping.abstains stepping.named stepping.sameIndex
      (stepping.ballots.peers _) retired (stepping.ballots.quiet _ retired)

theorem active_of_vote
    (stepping : Stepping members cast cluster move next outputs)
    (voted : (next.node move.node).view.vote ≠ 0) :
    (next.node move.node).retired = false := by
  by_contra retired
  exact voted (stepping.retired_quiet (by simpa using retired)).1

/-- No voter has given two votes in a term. -/
theorem unique
    (stepping : Stepping members cast cluster move next outputs)
    (voter : Fin n)
    (term first second : Nat)
    (firstCast : castAfter cast move.node next voter term first)
    (secondCast : castAfter cast move.node next voter term second) :
    first = second := by
  rcases firstCast with firstOld | ⟨rfl, given, rfl, rfl⟩
  · rcases secondCast with secondOld | ⟨rfl, given, rfl, rfl⟩
    · exact stepping.ballots.unique voter term first second firstOld
        secondOld
    · exact (stepping.fresh (stepping.active_of_vote given) firstOld).symm
  · rcases secondCast with secondOld | ⟨_, _, _, rfl⟩
    · exact stepping.fresh (stepping.active_of_vote given) secondOld
    · rfl

/-- A given vote is of a term that has been reached. -/
theorem past
    (stepping : Stepping members cast cluster move next outputs)
    (voter : Fin n)
    (term candidateId : Nat)
    (given : castAfter cast move.node next voter term candidateId) :
    term ≤ (next.node voter).horizon := by
  rcases given with old | ⟨rfl, _, rfl, _⟩
  · have bound := stepping.ballots.past voter term candidateId old
    by_cases here : voter = move.node
    · subst here
      exact bound.trans stepping.moves.step.horizon_le
    · rw [stepping.moves.node_other here]
      exact bound
  · exact le_max_left _ _

/-- The recorded votes have been given. -/
theorem counted
    (stepping : Stepping members cast cluster move next outputs)
    (own : (next.node move.node).view.vote = members.ids move.node)
    (voter : Fin n)
    (recorded :
      (next.node move.node).view.votes.getD voter 0 =
        members.ids move.node) :
    castAfter cast move.node next voter (next.node move.node).view.term
      (members.ids move.node) := by
  have idEq := stepping.id_eq
  have active := stepping.active_of_vote
    (by rw [own]; exact members.nonzero move.node)
  have noRestart := Act.not_restart (stepping.stays_of_active active)
  have self :
      castAfter cast move.node next move.node
        (next.node move.node).view.term (members.ids move.node) :=
    Or.inr ⟨rfl, members.nonzero move.node, rfl, own.symm⟩
  have tally := stepping.moves.step.tally noRestart stepping.named
    stepping.listed stepping.sameIndex (stepping.ballots.peers _)
    stepping.foreign (by rw [own, idEq])
  have keeps := stepping.keeps
  generalize sameAct : move.act = act at tally keeps
  cases tally with
  | kept voted sameTerm sameVotes =>
      rw [sameVotes] at recorded
      rw [sameTerm]
      exact Or.inl (stepping.ballots.counted _ (voted.trans idEq) voter
        recorded)
  | @recorded index peerIndex req rsp found answers notHigher granted voted
      sameTerm sameVotes =>
      rw [sameVotes] at recorded
      by_cases peer : (voter : Nat) = peerIndex
      · obtain ⟨sender, sentBy, given⟩ := stepping.ballots.answered _ req rsp
          (stepping.moves.voteReply_delivered sameAct found) rfl granted
        have sameVoter : voter = sender := Fin.ext (peer.trans sentBy)
        have current : req.term = (cluster.node move.node).view.term := by
          simpa [Node.keepsBallot, Node.records, found, granted, answers,
            voted, answers ▸ notHigher] using keeps
        rw [stepping.ballots.calls _ _ _ (List.mem_of_getElem? found),
          answers, current, ← sameTerm, ← sameVoter] at given
        exact Or.inl given
      · rw [List.getD_eq_getElem?_getD,
          List.getElem?_set_ne (Ne.symm peer),
          ← List.getD_eq_getElem?_getD] at recorded
        rw [sameTerm]
        exact Or.inl (stepping.ballots.counted _ (voted.trans idEq) voter
          recorded)
  | elected _ sameVotes =>
      rw [sameVotes, View.elect, List.getD_eq_getElem?_getD,
        List.getElem?_mapIdx] at recorded
      by_cases here : (voter : Nat) = (cluster.node move.node).view.index
      · have sameVoter : voter = move.node :=
          Fin.ext (here.trans (stepping.sane.view move.node).2.1)
        rw [sameVoter]
        exact self
      · cases slot : (cluster.node move.node).view.votes[(voter : Nat)]? <;>
          simp [slot, here] at recorded <;>
            exact absurd recorded.symm (members.nonzero move.node)

/-- A vote request in the network names the candidate that sent it. -/
theorem asked
    (stepping : Stepping members cast cluster move next outputs)
    (message : Message)
    (req : RequestVoteRequest)
    (sent : message ∈ next.net)
    (payload : message.payload = .voteRequest req) :
    ∃ candidate : Fin n,
      message.src = candidate ∧ req.candidateId = members.ids candidate ∧
        message.dst ≠ candidate := by
  rcases stepping.moves.mem_net.mp sent with old | ⟨output, new, rfl⟩
  · exact stepping.ballots.asked message req old payload
  · have sends := stepping.moves.step.sends new
    dsimp only at payload ⊢
    rw [payload] at sends
    generalize move.act = act at sends
    cases sends with
    | voteRequest found =>
        have other := stepping.ballots.peers _ _
          (List.mem_of_getElem? found)
        rw [(stepping.sane.view move.node).2.1] at other
        exact ⟨move.node, rfl, stepping.id_eq, other⟩

theorem calls
    (stepping : Stepping members cast cluster move next outputs)
    (peerIndex : Nat)
    (req : RequestVoteRequest)
    (held :
      .voteCall peerIndex req ∈ (next.node move.node).threads) :
    req.candidateId = members.ids move.node := by
  rcases stepping.moves.step.thread_origin held with old | new
  · exact stepping.ballots.calls _ _ _ old
  · generalize move.act = act at new
    cases new with
    | voteCall _ =>
        exact stepping.id_eq

/-- A granted vote in the network has been given. -/
theorem answered
    (stepping : Stepping members cast cluster move next outputs)
    (message : Message)
    (req : RequestVoteRequest)
    (rsp : RequestVoteResponse)
    (sent : message ∈ next.net)
    (payload : message.payload = .voteResponse req rsp)
    (granted : rsp.voteGranted = true) :
    ∃ voter : Fin n,
      message.src = voter ∧
        castAfter cast move.node next voter rsp.term req.candidateId := by
  rcases stepping.moves.mem_net.mp sent with old | ⟨output, new, rfl⟩
  · obtain ⟨voter, sentBy, given⟩ :=
      stepping.ballots.answered message req rsp old payload granted
    exact ⟨voter, sentBy, Or.inl given⟩
  · have sends := stepping.moves.step.sends new
    have listed := stepping.listed
    have asked := fun src act => stepping.ballots.asked _ req
      (@Cluster.Moves.vote_delivered _ _ _ _ _ stepping.moves src req act) rfl
    dsimp only at payload ⊢
    rw [payload] at sends
    generalize move.act = act at sends asked
    cases sends with
    | @voteResponse src _ viewed =>
        obtain ⟨candidate, -, named, -⟩ := asked _ rfl
        have grants :
            ((cluster.node move.node).view.bump req.term).grants req =
              true := granted
        obtain ⟨bumpIndex, bumpLength⟩ :=
          View.bump_shape (cluster.node move.node).view req.term
        have term : (next.node move.node).view.term =
            ((cluster.node move.node).view.voteResponse req).term := by
          rw [viewed, View.voted_term]
        have vote : (next.node move.node).view.vote = req.candidateId := by
          rw [viewed, View.voted]
          simp only [grants, if_true]
          exact View.withVote_vote (by rw [bumpIndex, bumpLength]; exact listed)
        refine ⟨move.node, rfl, Or.inr ⟨rfl, ?_, term.symm, vote.symm⟩⟩
        rw [named]
        exact members.nonzero candidate

/-- A won election has a majority of given votes. -/
theorem won
    (stepping : Stepping members cast cluster move next outputs)
    (term : Nat)
    (became : .becameLeader term ∈ (next.node move.node).history) :
    ∃ voters : Finset (Fin n),
      IsMajority voters ∧
        ∀ voter, voter ∈ voters →
          cast voter term (members.ids move.node) := by
  rcases stepping.moves.step.leader_event became with old | ⟨wins, rfl, won⟩
  · exact stepping.ballots.won _ _ old
  · obtain ⟨id, -, length, -⟩ := stepping.sane.view move.node
    have own := Node.vote_own_of_wins stepping.keeps wins
    have enough := View.count_of_quorumLeft won
    rw [length, id] at enough
    refine ⟨positions (cluster.node move.node).view.votes 0
      (members.ids move.node), isMajority_positions length 0 enough, ?_⟩
    intro voter counted
    exact stepping.ballots.counted _ (own.trans id) voter
      (Finset.mem_filter.mp counted).2

end Ballots.Stepping

/-- A step extends the votes and keeps what is known about them. -/
theorem Ballots.step
    (stepping : Ballots.Stepping members cast cluster move next outputs) :
    Ballots members (castAfter cast move.node next) next := by
  have other :
      ∀ {member : Fin n}, member ≠ move.node →
        next.node member = cluster.node member :=
    fun away => stepping.moves.node_other away
  have old := stepping.ballots
  refine ⟨stepping.unique, ?_, stepping.past, ?_, ?_, ?_, ?_,
    stepping.asked, ?_, ?_, stepping.answered, ?_⟩
  · intro voter term candidateId given
    rcases given with before | ⟨_, given, _, _⟩
    · exact old.named voter term candidateId before
    · exact given
  · intro voter voted
    by_cases here : voter = move.node
    · subst here
      exact Or.inr ⟨rfl, voted, rfl, rfl⟩
    · rw [other here] at voted ⊢
      exact Or.inl (old.held voter voted)
  · intro voter candidateId active given
    by_cases here : voter = move.node
    · subst here
      rcases given with before | ⟨_, _, _, same⟩
      · exact stepping.fresh active before
      · exact same.symm
    · rw [other here] at active given ⊢
      rcases given with before | ⟨same, _⟩
      · exact old.current voter candidateId active before
      · exact absurd same here
  · intro candidate own voter recorded
    by_cases here : candidate = move.node
    · subst here
      exact stepping.counted own voter recorded
    · rw [other here] at own recorded ⊢
      exact Or.inl (old.counted candidate own voter recorded)
  · intro member retired
    by_cases here : member = move.node
    · subst here
      exact stepping.retired_quiet retired
    · rw [other here] at retired ⊢
      exact old.quiet member retired
  · intro candidate peerIndex req held
    by_cases here : candidate = move.node
    · subst here
      exact stepping.calls peerIndex req held
    · rw [other here] at held
      exact old.calls candidate peerIndex req held
  · intro member
    by_cases here : member = move.node
    · subst here
      intro thread held
      rw [stepping.sameIndex]
      exact concernsPeer_step stepping.moves.step (old.peers _) thread held
    · rw [other here]
      exact old.peers member
  · intro leader term became
    have before :
        ∃ voters : Finset (Fin n),
          IsMajority voters ∧
            ∀ voter, voter ∈ voters →
              cast voter term (members.ids leader) := by
      by_cases here : leader = move.node
      · subst here
        exact stepping.won term became
      · rw [other here] at became
        exact old.won leader term became
    obtain ⟨voters, majority, voted⟩ := before
    exact ⟨voters, majority, fun voter voting => Or.inl (voted voter voting)⟩

/-- No vote has been given at the start. -/
theorem start_ballots
    (members : Membership n)
    (settings : Fin n → Settings) :
    Ballots members (fun _ _ _ => False) (members.start settings) := by
  have fresh : ∀ member, ∃ halted,
      (members.start settings).node member =
        members.freshNode member halted :=
    fun member => boot_node members settings member
  have noVote : ∀ member,
      ((members.start settings).node member).view.vote = 0 := by
    intro member
    obtain ⟨halted, same⟩ := fresh member
    rw [same]
    cases halted <;>
      simp [Membership.freshNode, Membership.constructedView, View.started,
        View.vote]
  have noThreads : ∀ member,
      ((members.start settings).node member).threads = [] := by
    intro member
    obtain ⟨halted, same⟩ := fresh member
    rw [same]
    rfl
  have noHistory : ∀ member,
      ((members.start settings).node member).history = [] := by
    intro member
    obtain ⟨halted, same⟩ := fresh member
    rw [same]
    rfl
  refine ⟨?_, ?_, ?_, ?_, ?_, ?_, ?_, ?_, ?_, ?_, ?_, ?_⟩
  · intro voter term first second impossible
    exact impossible.elim
  · intro voter term candidateId impossible
    exact impossible.elim
  · intro voter term candidateId impossible
    exact impossible.elim
  · intro voter voted
    exact absurd (noVote voter) voted
  · intro voter candidateId active impossible
    exact impossible.elim
  · intro candidate own
    rw [noVote] at own
    exact absurd own.symm (members.nonzero candidate)
  · intro member retired
    simp [Node.retired, Node.restarts, noHistory] at retired
  · intro message req sent
    cases sent
  · intro candidate peerIndex req held
    rw [noThreads] at held
    cases held
  · intro member thread held
    rw [noThreads] at held
    cases held
  · intro message req rsp sent
    cases sent
  · intro leader term became
    rw [noHistory] at became
    cases became

/--
The election condition on a step of the cluster: no restart, an election is won
by a node that still has its own vote, and a vote recorded for such a node
answers a request of its current term.
-/
def electionsKept
    (cluster : Cluster n)
    (move : Move n) :
    Bool :=
  !move.act.isRestart && (cluster.node move.node).keepsBallot move.act

/-- What a run without restarts keeps about votes. -/
structure Cluster.Voting
    (members : Membership n)
    (cluster : Cluster n) : Prop where
  sane : cluster.Sane members
  active : ∀ member, (cluster.node member).retired = false
  ballots : ∃ cast, Ballots members cast cluster

/-- Every step inside the condition keeps the ballots in order. -/
theorem voting_step
    (voting : cluster.Voting members)
    (allowed : electionsKept cluster move = true)
    (stepped : cluster.step move = some next) :
    next.Voting members := by
  obtain ⟨outputs, moves⟩ := Cluster.step_moves voting.sane stepped
  obtain ⟨cast, ballots⟩ := voting.ballots
  simp only [electionsKept, Bool.and_eq_true, Bool.not_eq_true'] at allowed
  have abstains :
      (cluster.node move.node).abstains move.act = true := by
    simp [Node.abstains, voting.active]
  refine ⟨moves.sane voting.sane, ?_, castAfter cast move.node next, ?_⟩
  · intro member
    by_cases here : member = move.node
    · subst here
      rw [moves.step.retired_eq (Act.not_restart allowed.1)]
      exact voting.active _
    · rw [moves.node_other here]
      exact voting.active member
  · exact Ballots.step ⟨voting.sane, ballots, moves, allowed.2, abstains⟩

/-- Nobody has voted in a cluster that has just booted. -/
theorem start_voting
    (members : Membership n)
    (settings : Fin n → Settings) :
    (members.start settings).Voting members := by
  refine ⟨start_sane members settings, fun member => ?_, _,
    start_ballots members settings⟩
  obtain ⟨halted, fresh⟩ := boot_node members settings member
  rw [Cluster.node, Membership.start, fresh]
  rfl

/-- No two nodes have become leader in one term. -/
def Cluster.ElectionSafe (cluster : Cluster n) : Prop :=
  ∀ term first second,
    .becameLeader term ∈ (cluster.procs first).history →
    .becameLeader term ∈ (cluster.procs second).history →
    first = second

/--
Election safety: in a run without restarts in which every election is won by a
node that still has its own vote, with recorded votes of its own term, no two
nodes become leader in one term.
-/
theorem elections_are_safe
    {settings : Fin n → Settings}
    {moves : List (Move n)}
    (run :
      runWhile electionsKept Cluster.step (members.start settings) moves =
        some cluster) :
    cluster.ElectionSafe := by
  have voting : cluster.Voting members :=
    runWhile_invariant (Cluster.Voting members)
      (fun _ _ _ voting allowed stepped => voting_step voting allowed stepped)
      (start_voting members settings) run
  obtain ⟨cast, ballots⟩ := voting.ballots
  intro term first second firstWon secondWon
  exact ballots.leaders_unique firstWon secondWon

end

/-- The move of a node whose storage works. -/
def moveOf
    (node : Fin 3)
    (act : Act) :
    Move 3 where
  node := node
  act := act

/-- Three nodes on small rings. -/
def threeNodes : Cluster 3 :=
  threeMembers.start fun _ => smallRing

/-- The sections of `main_loop` from a follower's timeout to its candidacy. -/
def candidacy (node : Fin 3) : List (Move 3) :=
  [moveOf node (mainAct false), moveOf node (mainAct true),
   moveOf node (mainAct false)]

/-- The sections of `main_loop` from there to the next `become_leader`. -/
def waiting (node : Fin 3) : List (Move 3) :=
  [moveOf node (mainAct false), moveOf node (mainAct false),
   moveOf node (mainAct false)]

/-- The first node wins term 1 with the vote of the second one. -/
def firstElection : List (Move 3) :=
  candidacy firstMember ++ waiting firstMember ++
  [moveOf firstMember (.voteSend 0),
   moveOf secondMember (.handleVote 0
     { term := 1, candidateId := 1, lastLogIndex := 0, lastLogTerm := 0 }),
   moveOf firstMember (.voteReply 0 { term := 1, voteGranted := true }),
   moveOf firstMember (mainAct false)]

/-- The second node wins term 2 with the vote of the third one. -/
def secondElection : List (Move 3) :=
  candidacy secondMember ++ waiting secondMember ++
  [moveOf secondMember (.voteSend 1),
   moveOf thirdMember (.handleVote 1
     { term := 2, candidateId := 2, lastLogIndex := 0, lastLogTerm := 0 }),
   moveOf secondMember (.voteReply 1 { term := 2, voteGranted := true }),
   moveOf secondMember (mainAct false)]

/-- The first node wins a term and the second one the next term. -/
def twoElections : List (Move 3) :=
  firstElection ++ secondElection

/-- Two undisturbed elections have one leader each. -/
theorem two_elections_are_safe :
    ∃ cluster,
      runWhile electionsKept Cluster.step threeNodes twoElections =
          some cluster ∧
        .becameLeader 1 ∈ (cluster.procs 0).history ∧
          .becameLeader 2 ∈ (cluster.procs 1).history ∧
            cluster.ElectionSafe := by
  obtain ⟨cluster, run, passed⟩ :
      ∃ cluster,
        runWhile electionsKept Cluster.step threeNodes twoElections =
            some cluster ∧
          decide (.becameLeader 1 ∈ (cluster.procs 0).history ∧
            .becameLeader 2 ∈ (cluster.procs 1).history) = true :=
    runWhile_exists (by decide +kernel)
  have events := of_decide_eq_true passed
  exact ⟨cluster, run, events.1, events.2, elections_are_safe run⟩

/-- Every run without a restart has one leader in a term. -/
def ElectionsSafe (start : Cluster 3) : Prop :=
  ∀ moves cluster,
    runWhile (fun _ move => !move.act.isRestart) Cluster.step start moves =
      some cluster →
    cluster.ElectionSafe

/--
A vote of term 1 is recorded after the candidate has moved on to term 2, in
which another node has won.
-/
def lateVote : List (Move 3) :=
  candidacy firstMember ++
  [moveOf firstMember (.voteSend 0),
   moveOf secondMember (.handleVote 0
     { term := 1, candidateId := 1, lastLogIndex := 0, lastLogTerm := 0 }),
   moveOf firstMember (mainAct false)] ++ candidacy firstMember ++ secondElection ++
  [moveOf firstMember (.voteReply 0 { term := 1, voteGranted := true }),
   moveOf firstMember (mainAct false)]

/-- A late vote makes a second leader of the same term. -/
theorem late_vote_elects_twice :
    ¬ ElectionsSafe threeNodes := by
  intro safe
  obtain ⟨cluster, run, passed⟩ :
      ∃ cluster,
        runWhile (fun _ move => !move.act.isRestart) Cluster.step threeNodes
            lateVote = some cluster ∧
          decide (.becameLeader 2 ∈ (cluster.procs 0).history ∧
            .becameLeader 2 ∈ (cluster.procs 1).history) = true :=
    runWhile_exists (by decide +kernel)
  have events := of_decide_eq_true passed
  have same := safe lateVote cluster run 2 0 1 events.1 events.2
  cases same

end NvmeofRaft
