import NvmeofRaft.RecordedVotes

namespace NvmeofRaft

/-!
# Recorded elections

The record keeps the premises of completeness: the line of a won term starts
with the log of its winner, and voters keep what they had acknowledged.
-/

section

variable {n : Nat} {members : Membership n} {record later : Record n}
variable {cluster next : Cluster n} {move : Move n} {outputs : Outputs}

namespace Record.Stepping

variable
  (stepping : Stepping members record cluster move next outputs later)

include stepping

theorem shape_after
    (term : Nat)
    (won : next.Won term) :
    ∃ count,
      later.line term = later.base term ++ List.replicate (count + 1) term := by
  rcases stepping.won_origin won with old | ⟨wins, rfl⟩
  · rw [stepping.base_of_won old]
    obtain ⟨count, shape⟩ := stepping.sound.votes.elections.shape term old
    rcases stepping.line_cases term with same | ⟨leader, rfl⟩
    · exact ⟨count, same.trans shape⟩
    · rcases stepping.leads_pushes leader with
        ⟨before, sameTerm, more, pushed⟩ | ⟨wins, sameTerm⟩
      · have line := stepping.logging.matching.leader move.node before
        rw [← sameTerm, shape] at line
        refine ⟨count + more, ?_⟩
        rw [stepping.line_of_leader leader, pushed, ← line, ← sameTerm,
          List.append_assoc, List.replicate_append_replicate]
        congr 2
        omega
      · rw [sameTerm] at old
        exact absurd old (stepping.not_won_of_wins wins)
  · obtain ⟨leader, sameTerm, -⟩ := stepping.step.won wins
    refine ⟨0, ?_⟩
    have line := stepping.line_of_leader leader
    rw [stepping.full_of_wins wins, sameTerm] at line
    rw [stepping.base_of_wins wins]
    exact line

theorem below_after
    (term other : Nat)
    (won : next.Won term)
    (held : other ∈ later.base term) :
    other < term := by
  rcases stepping.won_origin won with old | ⟨wins, rfl⟩
  · rw [stepping.base_of_won old] at held
    exact stepping.sound.votes.elections.below term other old held
  · rw [stepping.base_of_wins wins] at held
    refine lt_of_le_of_ne (stepping.sound.votes.bounded _ other held) ?_
    rintro rfl
    exact (stepping.logging.matching.follows _).line_ne_nil held
      (stepping.logging.line_of_wins wins)

theorem unwon_after
    (term : Nat)
    (lost : ¬ next.Won term) :
    later.line term = [] := by
  rcases stepping.line_cases term with same | ⟨leader, rfl⟩
  · rw [same]
    exact stepping.sound.votes.elections.unwon term
      fun won => lost (stepping.won_mono won)
  · exact absurd ⟨move.node,
      ((stepping.matching.reign move.node).leading leader).2⟩ lost

theorem baseFollows_after
    (term : Nat)
    (won : next.Won term) :
    Follows later.line (later.base term) := by
  rcases stepping.won_origin won with old | ⟨wins, rfl⟩
  · rw [stepping.base_of_won old]
    exact (stepping.sound.votes.elections.baseFollows term old).mono
      stepping.grows
  · rw [stepping.base_of_wins wins]
    exact (stepping.logging.matching.follows _).mono stepping.grows

theorem voterFollows_after
    (voter : Fin n)
    (term : Nat)
    (voted : later.Voted voter term) :
    Follows later.line (later.voterLog voter term) := by
  obtain ⟨candidateId, given⟩ := voted
  rcases stepping.cast_origin given with old | ⟨rfl, rfl, -, fresh⟩
  · rw [stepping.voterLog_kept old]
    exact (stepping.sound.votes.elections.voterFollows voter term
      ⟨_, old⟩).mono stepping.grows
  · rw [stepping.voterLog_new fresh]
    exact stepping.matching.follows _

theorem elected_after
    (term : Nat)
    (won : next.Won term) :
    ∃ voters : Finset (Fin n),
      IsMajority voters ∧
        ∀ voter, voter ∈ voters →
          later.Voted voter term ∧
            EndsLater (later.base term) (later.voterLog voter term) := by
  rcases stepping.won_origin won with old | ⟨wins, rfl⟩
  · obtain ⟨voters, majority, votes⟩ :=
      stepping.sound.votes.elections.elected term old
    refine ⟨voters, majority, fun voter counted => ?_⟩
    obtain ⟨⟨candidateId, given⟩, endsLater⟩ := votes voter counted
    rw [stepping.base_of_won old, stepping.voterLog_kept given]
    exact ⟨⟨_, stepping.casts _ _ _ given⟩, endsLater⟩
  · have voting := stepping.logging.voting
    obtain ⟨voters, majority, votes⟩ :=
      voting.won _ (stepping.step.won wins).2.2.1
    refine ⟨voters, majority, fun voter counted => ?_⟩
    have given := votes voter counted
    rw [stepping.base_of_wins wins, stepping.voterLog_kept given]
    refine ⟨⟨_, stepping.casts _ _ _ given⟩, ?_⟩
    exact stepping.sound.votes.bids move.node voter
      ((Node.vote_own_of_wins voting.keeps wins).trans voting.id_eq)
      (stepping.logging.line_of_wins wins) given

/-- A new acknowledgement is of a term that the node has not been beyond. -/
theorem horizon_of_acked
    {index : Nat}
    (acks :
      (next.node move.node).view.role = .leader ∧
          index ≤ (later.full move.node).length ∨
        ∃ req,
          (cluster.node move.node).TakesOver (next.node move.node) move.act
              req ∧
            index ≤ req.lastIndex) :
    (cluster.node move.node).horizon ≤ (next.node move.node).view.term := by
  rcases acks with ⟨leader, -⟩ | ⟨req, takes, -⟩
  · have stays := stepping.logging.voting.stays_of_leader leader
    have active : (next.node move.node).retired = false := by
      by_contra retired
      exact (stepping.logging.voting.retired_quiet
        (by simpa using retired)).2 leader
    rw [stepping.step.retired_eq (Act.not_restart stays)] at active
    rw [Node.horizon_of_active active]
    exact stepping.step.term_le (Act.not_restart stays)
  · have taken := stepping.taken takes
    have stays : move.act.isRestart = false := by
      generalize move.act = act at takes
      cases takes <;> rfl
    refine max_le (stepping.step.term_le (Act.not_restart stays)) ?_
    rw [taken.term]
    exact taken.floor

/-- A voter has kept what it had acknowledged. -/
theorem retained_after
    (voter : Fin n)
    (term index higher : Nat)
    (acks : later.acked voter term index)
    (voted : later.Voted voter higher)
    (ordered : term < higher) :
    (later.line term).take index <+: later.voterLog voter higher := by
  obtain ⟨candidateId, given⟩ := voted
  rcases stepping.cast_origin given with before | ⟨rfl, rfl, -, fresh⟩
  · rw [stepping.voterLog_kept before]
    rcases stepping.acked_origin acks with old | ⟨rfl, rfl, new⟩
    · rw [stepping.line_take (stepping.sound.acks.kept _ _ _ old).1]
      exact stepping.sound.votes.elections.retained voter term index higher
        old ⟨_, before⟩ ordered
    · have past := stepping.logging.voting.ballots.past _ _ _ before
      have bound := stepping.horizon_of_acked new
      omega
  · rw [stepping.voterLog_new fresh]
    exact (stepping.kept_after _ _ _ acks).2
      (stepping.logging.voting.active_of_vote fresh.1)

theorem votes_after :
    later.Votes members next where
  elections := {
    shape := stepping.shape_after
    below := stepping.below_after
    unwon := stepping.unwon_after
    baseFollows := stepping.baseFollows_after
    voterFollows := stepping.voterFollows_after
    elected := stepping.elected_after
    retained := stepping.retained_after }
  bounded := stepping.bounded_after
  castTerm := stepping.castTerm_after
  bids := stepping.bids_after
  asked := stepping.asked_after

end Record.Stepping

end

end NvmeofRaft
