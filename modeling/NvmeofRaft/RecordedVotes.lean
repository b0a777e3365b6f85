import NvmeofRaft.RecordedAcks

namespace NvmeofRaft

/-!
# Recorded votes

A candidate's log does not change before it has won or lost, so that its log is
the one that its voters have compared with theirs.
-/

section

variable {n : Nat} {members : Membership n} {record later : Record n}
variable {cluster next : Cluster n} {move : Move n} {outputs : Outputs}

namespace Record.Stepping

variable
  (stepping : Stepping members record cluster move next outputs later)

include stepping

theorem horizon_le
    (member : Fin n) :
    (cluster.node member).horizon ≤ (next.node member).horizon := by
  by_cases here : member = move.node
  · subst here
    exact stepping.step.horizon_le
  · rw [stepping.node_other here]

/-- The entries of a log are of no higher term than its node. -/
theorem bounded_after
    (member : Fin n)
    (term : Nat)
    (held : term ∈ later.full member) :
    term ≤ (next.node member).view.term := by
  have bounded := stepping.sound.votes.bounded
  by_cases here : member = move.node
  · subst here
    by_cases restarts : move.act.isRestart = true
    · rw [stepping.full_restarted restarts] at held
      cases held
    · have stays : move.act.isRestart = false := by
        simpa using restarts
      have higher := stepping.step.term_le (Act.not_restart stays)
      have old :
          term ∈ record.full move.node →
            term ≤ (next.node move.node).view.term :=
        fun before => (bounded _ term before).trans higher
      rcases stepping.full_cases stays with
        same | wins | ⟨-, -, -, count, pushed⟩ | ⟨req, taken⟩
      · exact old (same ▸ held)
      · rw [stepping.full_of_wins wins] at held
        rcases List.mem_append.mp held with before | new
        · exact old before
        · rw [List.mem_singleton.mp new]
          exact higher
      · rw [pushed] at held
        rcases List.mem_append.mp held with before | new
        · exact old before
        · rw [List.eq_of_mem_replicate new]
          exact higher
      · rcases taken.full with same | ⟨-, same⟩
        · exact old (same ▸ held)
        · rw [same] at held
          rw [taken.term]
          exact stepping.sound.votes.elections.le_of_mem_line
            (List.mem_of_mem_take held)
  · rw [stepping.full_other here] at held
    rw [stepping.node_other here]
    exact bounded member term held

/-- How the moving node comes to have a new vote. -/
theorem vote_origin
    (fresh :
      (cluster.node move.node).view.VotesAnew (next.node move.node).view) :
    (next.node move.node).view.vote = members.ids move.node ∧
        (next.node move.node).view.term =
          (cluster.node move.node).view.term + 1 ∨
      ∃ src req,
        move.act = .handleVote src req ∧
          (cluster.node move.node).view.logOk req = true ∧
            (next.node move.node).view.vote = req.candidateId ∧
              (next.node move.node).view.term = req.term := by
  have voting := stepping.logging.voting
  have stays := voting.stays_of_active (voting.active_of_vote fresh.1)
  have origin := stepping.step.vote_origin (Act.not_restart stays)
    voting.listed voting.sameIndex (voting.ballots.peers _) fresh.1
  generalize move.act = act at origin
  cases origin with
  | kept vote term =>
      exact absurd ⟨vote, term⟩ fresh.2
  | own vote term =>
      exact Or.inl ⟨vote.trans voting.id_eq, term⟩
  | granted ok vote term =>
      exact Or.inr ⟨_, _, rfl, ok, vote, term⟩

/-- A node that votes for another one keeps its log. -/
theorem full_of_handleVote
    {src : Nat}
    {req : RequestVoteRequest}
    (act : move.act = .handleVote src req) :
    later.full move.node = record.full move.node := by
  have effect := stepping.step.logEffect
  refine stepping.full_same (by rw [act]; rfl) ?_
  rw [act] at effect
  cases effect with
  | kept same =>
      exact same.log

theorem castTerm_after
    (voter : Fin n)
    (term : Nat)
    (candidate : Fin n)
    (given : later.cast voter term (members.ids candidate)) :
    term ≤ (next.node candidate).horizon := by
  rcases stepping.cast_origin given with old | ⟨rfl, rfl, named, fresh⟩
  · exact (stepping.sound.votes.castTerm voter term candidate old).trans
      (stepping.horizon_le candidate)
  · rcases stepping.vote_origin fresh with
      ⟨own, -⟩ | ⟨src, req, act, -, vote, term⟩
    · rw [own] at named
      rw [members.distinct named]
      exact le_max_left _ _
    · rw [term]
      have asked := (stepping.sound.votes.asked _ req candidate
        (stepping.logging.voting.moves.vote_delivered act) rfl
        (vote.symm.trans named.symm)).1
      exact asked.trans (stepping.horizon_le candidate)

/-- A candidate that moves within its term had its own vote before. -/
theorem candidate_before
    (own : (next.node move.node).view.vote = members.ids move.node) :
    move.act.isRestart = false ∧
      ((cluster.node move.node).view.vote = members.ids move.node ∧
          (next.node move.node).view.term =
            (cluster.node move.node).view.term ∨
        (next.node move.node).view.term =
          (cluster.node move.node).view.term + 1) := by
  have voting := stepping.logging.voting
  have voted : (next.node move.node).view.vote ≠ 0 := by
    rw [own]
    exact members.nonzero move.node
  have stays := voting.stays_of_active (voting.active_of_vote voted)
  refine ⟨stays, ?_⟩
  have tally := stepping.step.tally (Act.not_restart stays) voting.named
    voting.listed voting.sameIndex (voting.ballots.peers _) voting.foreign
    (own.trans voting.id_eq.symm)
  generalize move.act = act at tally
  cases tally with
  | kept before term _ =>
      exact Or.inl ⟨before.trans voting.id_eq, term⟩
  | recorded _ _ _ _ before term _ =>
      exact Or.inl ⟨before.trans voting.id_eq, term⟩
  | elected term _ =>
      exact Or.inr term

/-- The moving candidate's term is new to the votes, if it is new to it. -/
theorem not_cast_of_elected
    (own : (next.node move.node).view.vote = members.ids move.node)
    (elected :
      (next.node move.node).view.term =
        (cluster.node move.node).view.term + 1)
    (voter : Fin n) :
    ¬ record.cast voter (next.node move.node).view.term
        (members.ids move.node) := by
  intro given
  have active := stepping.logging.voting.active_of_vote
    (by rw [own]; exact members.nonzero move.node)
  have stays := stepping.logging.voting.stays_of_active active
  rw [stepping.step.retired_eq (Act.not_restart stays)] at active
  have bound := stepping.sound.votes.castTerm voter _ move.node given
  rw [Node.horizon_of_active active] at bound
  omega

/-- The log of a candidate ends as late as those of its voters. -/
theorem bids_after
    (candidate voter : Fin n)
    (own : (next.node candidate).view.vote = members.ids candidate)
    (unled : later.line (next.node candidate).view.term = [])
    (given :
      later.cast voter (next.node candidate).view.term
        (members.ids candidate)) :
    EndsLater (later.full candidate)
      (later.voterLog voter (next.node candidate).view.term) := by
  have grows := stepping.grows (next.node candidate).view.term
  rw [unled, List.prefix_nil] at grows
  by_cases here : candidate = move.node
  · subst here
    obtain ⟨stays, before⟩ := stepping.candidate_before own
    rcases stepping.cast_origin given with old | ⟨rfl, -, -, fresh⟩
    · rcases before with ⟨voted, term⟩ | elected
      · rw [stepping.full_of_unled stays unled, stepping.voterLog_kept old]
        rw [term] at grows old ⊢
        exact stepping.sound.votes.bids move.node voter voted grows old
      · exact absurd old (stepping.not_cast_of_elected own elected voter)
    · rw [stepping.voterLog_new fresh]
      exact endsLater_refl _
  · rcases stepping.cast_origin given with old | ⟨rfl, term, named, fresh⟩
    · rw [stepping.voterLog_kept old]
      rw [stepping.node_other here] at own grows old ⊢
      rw [stepping.full_other here]
      exact stepping.sound.votes.bids candidate voter own grows old
    · -- the moving node has compared its log with the request's
      rcases stepping.vote_origin fresh with
        ⟨self, -⟩ | ⟨src, req, act, ok, vote, sameTerm⟩
      · rw [self] at named
        exact absurd (members.distinct named) here
      · have asked := (stepping.sound.votes.asked _ req candidate
          (stepping.logging.voting.moves.vote_delivered act) rfl
          (vote.symm.trans named.symm)).2
        rw [← sameTerm, ← term] at asked
        rw [term, stepping.voterLog_new fresh,
          stepping.full_of_handleVote act, stepping.full_other here]
        rw [stepping.node_other here] at own grows asked
        obtain ⟨lastIndex, lastTerm⟩ := asked rfl own grows
        exact View.endsLater_of_logOk
          (stepping.logging.holding (by rw [act]; rfl)).1 ok lastIndex lastTerm

/-- A vote request of an open election describes the candidate's log. -/
theorem asked_after
    (message : Message)
    (req : RequestVoteRequest)
    (candidate : Fin n)
    (sent : message ∈ next.net)
    (payload : message.payload = .voteRequest req)
    (named : req.candidateId = members.ids candidate) :
    req.term ≤ (next.node candidate).horizon ∧
      (req.term = (next.node candidate).view.term →
        (next.node candidate).view.vote = members.ids candidate →
        later.line req.term = [] →
        req.lastLogIndex = (later.full candidate).length ∧
          req.lastLogTerm = (later.full candidate).getLastD 0) := by
  rcases stepping.logging.voting.moves.mem_net.mp sent with
    old | ⟨output, new, rfl⟩
  · obtain ⟨bound, described⟩ :=
      stepping.sound.votes.asked message req candidate old payload named
    refine ⟨bound.trans (stepping.horizon_le candidate),
      fun term own unled => ?_⟩
    have grows := stepping.grows req.term
    rw [unled, List.prefix_nil] at grows
    by_cases here : candidate = move.node
    · subst here
      obtain ⟨stays, before⟩ := stepping.candidate_before own
      rw [term] at unled
      rcases before with ⟨voted, sameTerm⟩ | elected
      · rw [stepping.full_of_unled stays unled]
        exact described (term.trans sameTerm) voted grows
      · have active := stepping.logging.voting.active_of_vote
          (by rw [own]; exact members.nonzero move.node)
        rw [stepping.step.retired_eq (Act.not_restart stays)] at active
        rw [Node.horizon_of_active active] at bound
        omega
    · rw [stepping.node_other here] at term own
      rw [stepping.full_other here]
      exact described term own grows
  · have sends := stepping.step.sends new
    dsimp only at payload
    rw [payload] at sends
    generalize act : move.act = moved at sends
    cases sends with
    | @voteRequest index peerIndex found =>
        have stays : move.act.isRestart = false := by rw [act]; rfl
        have same : candidate = move.node :=
          (members.distinct
            (stepping.logging.voting.id_eq.symm.trans named)).symm
        subst same
        have holds := (stepping.logging.holding stays).1
        have kept : later.full move.node = record.full move.node := by
          have effect := stepping.step.logEffect
          refine stepping.full_same stays ?_
          rw [act] at effect
          cases effect with
          | kept same =>
              exact same.log
        refine ⟨?_, fun _ _ _ => ?_⟩
        · exact (le_max_left _ _).trans (stepping.horizon_le move.node)
        · rw [kept]
          exact ⟨by
            show (cluster.node move.node).view.tail - 1 = _
            rw [holds.tail]
            rfl, holds.lastTerm⟩

end Record.Stepping

end

end NvmeofRaft
