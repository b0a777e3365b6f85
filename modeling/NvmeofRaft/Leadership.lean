import NvmeofRaft.ElectionSafety

namespace NvmeofRaft

/-!
# Leaderships

A node leads from the election it has won until its term grows.  It never wins
a term twice, since `main_loop` of a leader does not call `become_leader`.
-/

/-- What the history of a node says about its leaderships. -/
structure Node.Reign (node : Node) : Prop where
  leading :
    node.view.role = .leader →
      (node.halted = true ∨ node.main.leads = true) ∧
        .becameLeader node.view.term ∈ node.history
  ended :
    node.retired = false →
    ∀ term,
      .becameLeader term ∈ node.history →
      term < node.view.term ∨
        term = node.view.term ∧ node.view.role = .leader
  positive : ∀ term, .becameLeader term ∈ node.history → 0 < term
  candidate : node.view.vote = node.view.id → 0 < node.view.term

section

variable {mapped : Nat → Prop} {node after : Node} {act : Act}
variable {outputs : Outputs}

/-- A leader stays one until its term grows. -/
theorem Node.Step.leader_stays
    (step : node.Step mapped act after outputs)
    (noRestart : ∀ kernel cacheLost, act ≠ .restart kernel cacheLost)
    (leads : node.main.leads = true)
    (leader : node.view.role = .leader) :
    node.view.term < after.view.term ∨
      after.view.term = node.view.term ∧ after.view.role = .leader := by
  by_cases demoted : node.demotes act = true
  · have higher := step.ballotEffect
    generalize same : after.view.ballot = ballot at higher
    have term : after.view.term = ballot.term := congrArg Ballot.term same
    have role : after.view.role = ballot.role := congrArg Ballot.role same
    rw [term, role]
    cases higher with
    | kept =>
        exact Or.inr ⟨rfl, leader⟩
    | demoted higher _ =>
        exact Or.inl higher
    | steppedDown _ candidate =>
        rw [leader] at candidate
        cases candidate
    | elected pc =>
        cases demoted
    | recorded _ _ _ _ =>
        exact Or.inr ⟨rfl, leader⟩
    | granted _ =>
        simp only [Node.demotes, decide_eq_true_eq] at demoted
        rw [View.bump_of_lt demoted]
        exact Or.inl demoted
    | won _ _ =>
        exact Or.inr ⟨rfl, rfl⟩
    | restarted _ =>
        exact absurd rfl (noRestart _ _)
  · have quiet := Node.leads_quiet leads act
    have notDown : node.stepsDown act = false := by
      cases act <;> simp [Node.stepsDown, leader]
    obtain ⟨role, term⟩ := step.keeps_role noRestart (by simpa using demoted)
      quiet.1 quiet.2 notDown
    exact Or.inr ⟨term, role.trans leader⟩

/-- Winning is no restart. -/
theorem Node.stays_of_wins
    (wins : node.wins act = true) :
    act.isRestart = false := by
  cases act with
  | restart _ _ =>
      cases wins
  | _ =>
      rfl

/-- What a won election does. -/
theorem Node.Step.won
    (step : node.Step mapped act after outputs)
    (wins : node.wins act = true) :
    after.view.role = .leader ∧ after.view.term = node.view.term ∧
      .becameLeader node.view.term ∈ after.history ∧
        node.main.leads = false ∧
          after.view.log = node.view.log ++ [node.view.term] ∧
            after.view.tail = node.view.tail + 1 := by
  cases step with
  | electionWon pc _ _ =>
      exact ⟨rfl, rfl, List.mem_cons_self, by rw [pc]; rfl, rfl, rfl⟩
  | electionThrew pc _ _ =>
      exact ⟨rfl, rfl, List.mem_cons_self, by rw [pc]; rfl, rfl, rfl⟩
  | _ =>
      simp_all [Node.wins]

end

section

variable {n : Nat} {members : Membership n}
variable {cast : Fin n → Nat → Nat → Prop}
variable {cluster next : Cluster n} {move : Move n} {outputs : Outputs}

namespace Ballots.Stepping

/-- Only a restart moves a node that has halted. -/
theorem running
    (stepping : Stepping members cast cluster move next outputs)
    (stays : move.act.isRestart = false) :
    (cluster.node move.node).halted = false :=
  Process.running_of_step stepping.moves.stepped (Act.not_restart stays)

/-- Every step keeps the reign of a leader. -/
theorem reign
    (stepping : Stepping members cast cluster move next outputs)
    (reign : (cluster.node move.node).Reign) :
    (next.node move.node).Reign := by
  have step := stepping.moves.step
  by_cases restarts : move.act.isRestart = true
  · have events :
        ∀ term, .becameLeader term ∈ (next.node move.node).history →
          .becameLeader term ∈ (cluster.node move.node).history := by
      intro term became
      rcases step.leader_event became with old | ⟨wins, -⟩
      · exact old
      · rw [Node.stays_of_wins wins] at restarts
        cases restarts
    obtain ⟨retired, -, term, vote, role, -⟩ := step.cleared restarts
    refine ⟨?_, ?_, ?_, ?_⟩
    · intro leader
      rw [role] at leader
      cases leader
    · intro active
      rw [retired] at active
      cases active
    · intro term became
      exact reign.positive term (events term became)
    · intro own
      have named := (stepping.moves.sane stepping.sane).view move.node
      rw [vote, named.1] at own
      exact absurd own.symm (members.nonzero move.node)
  · have stays : move.act.isRestart = false := by
      simpa using restarts
    have noRestart := Act.not_restart stays
    have running := stepping.running stays
    refine ⟨?_, ?_, ?_, ?_⟩
    · intro leader
      rcases step.leader_origin noRestart leader with ⟨before, same⟩ | won
      · obtain ⟨branch, became⟩ := reign.leading before
        have leads := branch.resolve_left (by simp [running])
        refine ⟨Or.inr (step.main_leads leads leader), ?_⟩
        rw [same]
        exact step.history_mono became
      · exact ⟨won.2, won.1⟩
    · intro active term became
      rw [step.retired_eq noRestart] at active
      rcases step.leader_event became with old | ⟨wins, rfl, -⟩
      · rcases reign.ended active term old with lower | ⟨rfl, leader⟩
        · exact Or.inl (lower.trans_le (step.term_le noRestart))
        · have leads := (reign.leading leader).1.resolve_left
            (by simp [running])
          rcases step.leader_stays noRestart leads leader with higher | stayed
          · exact Or.inl higher
          · exact Or.inr ⟨stayed.1.symm, stayed.2⟩
      · obtain ⟨leader, same, -⟩ := step.won wins
        exact Or.inr ⟨same.symm, leader⟩
    · intro term became
      rcases step.leader_event became with old | ⟨wins, rfl, -⟩
      · exact reign.positive term old
      · exact reign.candidate (Node.vote_own_of_wins stepping.keeps wins)
    · intro own
      have sameId : (next.node move.node).view.id =
          (cluster.node move.node).view.id := by
        rw [stepping.id_eq,
          ((stepping.moves.sane stepping.sane).view move.node).1]
      rw [sameId] at own
      have tally := step.tally noRestart stepping.named stepping.listed
        stepping.sameIndex (stepping.ballots.peers _) stepping.foreign own
      generalize move.act = act at tally
      cases tally with
      | kept voted sameTerm _ =>
          rw [sameTerm]
          exact reign.candidate voted
      | recorded _ _ _ _ voted sameTerm _ =>
          rw [sameTerm]
          exact reign.candidate voted
      | elected sameTerm _ =>
          rw [sameTerm]
          exact Nat.succ_pos _

/-- A term that is being won has not been won before. -/
theorem not_won_before
    (stepping : Stepping members cast cluster move next outputs)
    (reign : (cluster.node move.node).Reign)
    (wins : (cluster.node move.node).wins move.act = true)
    (member : Fin n) :
    .becameLeader (cluster.node move.node).view.term ∉
      (cluster.node member).history := by
  intro before
  have running := stepping.running (Node.stays_of_wins wins)
  obtain ⟨-, -, became, leads, -⟩ := stepping.moves.step.won wins
  have after :
      .becameLeader (cluster.node move.node).view.term ∈
        (next.node member).history := by
    by_cases here : member = move.node
    · subst here
      exact stepping.moves.step.history_mono before
    · rw [stepping.moves.node_other here]
      exact before
  have same := (Ballots.step stepping).leaders_unique after became
  subst same
  have voted : (cluster.node move.node).view.vote ≠ 0 := by
    rw [Node.vote_own_of_wins stepping.keeps wins]
    exact stepping.named
  have active : (cluster.node move.node).retired = false := by
    by_contra retired
    exact voted (stepping.ballots.quiet _ (by simpa using retired)).1
  rcases reign.ended active _ before with lower | ⟨-, leader⟩
  · exact lt_irrefl _ lower
  · rcases (reign.leading leader).1 with halted | still
    · rw [running] at halted
      cases halted
    · rw [leads] at still
      cases still

end Ballots.Stepping

/-- Nobody leads a cluster that has just booted. -/
theorem start_reign
    (members : Membership n)
    (settings : Fin n → Settings)
    (member : Fin n) :
    ((members.start settings).node member).Reign := by
  obtain ⟨halted, fresh⟩ := boot_node members settings member
  rw [Cluster.node, Membership.start, fresh]
  have role : (members.freshNode member halted).view.role = .follower := by
    cases halted <;> rfl
  refine ⟨?_, ?_, ?_, ?_⟩
  · intro leader
    rw [role] at leader
    cases leader
  · intro _ term became
    cases became
  · intro term became
    cases became
  · intro own
    have none := (start_ballots members settings).held member
    by_contra zero
    have voted :
        ((members.start settings).node member).view.vote ≠ 0 := by
      rw [Cluster.node, Membership.start, fresh, own]
      cases halted <;> exact members.nonzero member
    exact none voted

end

end NvmeofRaft
