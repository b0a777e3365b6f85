import NvmeofRaft.RecordedElections
import NvmeofRaft.RecordedRequests

namespace NvmeofRaft

/-!
# Recorded commit indices

A leader commits what a majority has acknowledged, and a follower commits what
it has taken over from the leader.
-/

section

variable {view : View} {n : Nat}

/-- The members whose match index reaches an index. -/
def View.reaching
    (view : View)
    (logIdx : Nat) :
    Finset (Fin n) :=
  Finset.univ.filter fun position =>
    logIdx ≤ view.matchIndices.getD position 0

/-- The majority index is reached by a majority. -/
theorem View.isMajority_reaching
    (length : view.matched.length = n)
    (member : Fin n) :
    IsMajority (view.reaching view.majority : Finset (Fin n)) := by
  have whole : view.matchIndices.length = n := by
    rw [View.matchIndices, List.length_mapIdx, length]
  have isMedian : view.majority = median view.matchIndices := by
    rw [View.majority, median, List.length_insertionSort]
  have counted := @count_median view.matchIndices
    (by rw [whole]; exact Nat.zero_lt_of_lt member.isLt)
  rw [← isMedian, ← card_reaching whole, whole] at counted
  unfold IsMajority View.reaching
  omega

/-- A member whose match index reaches an index, or the node itself. -/
theorem View.reached_of_reaching
    {member : Fin n}
    {logIdx : Nat}
    (length : view.matched.length = n)
    (reaches : member ∈ view.reaching logIdx) :
    (member : Nat) = view.index ∧ logIdx ≤ view.tail - 1 ∨
      view.Reached member logIdx := by
  have value := (Finset.mem_filter.mp reaches).2
  have inside : (member : Nat) < view.matched.length := by
    rw [length]
    exact member.isLt
  rw [View.matchIndices, List.getD_eq_getElem?_getD, List.getElem?_mapIdx,
    List.getElem?_eq_getElem inside] at value
  simp only [Option.map_some, Option.getD_some] at value
  by_cases here : (member : Nat) = view.index
  · rw [if_pos here] at value
    exact Or.inl ⟨here, value⟩
  · rw [if_neg here] at value
    refine Or.inr (Or.inl ?_)
    rw [List.getD_eq_getElem?_getD, List.getElem?_eq_getElem inside]
    exact value

/-- A restarted node has committed nothing. -/
theorem Node.Step.commit_of_restart
    {mapped : Nat → Prop}
    {node after : Node}
    {act : Act}
    {outputs : Outputs}
    (step : node.Step mapped act after outputs)
    (restarts : act.isRestart = true) :
    after.view.commit = 0 := by
  cases step with
  | restarted =>
      rfl
  | restartThrew =>
      rfl
  | _ =>
      cases restarts

end

section

variable {n : Nat} {members : Membership n} {record later : Record n}
variable {cluster next : Cluster n} {move : Move n} {outputs : Outputs}

namespace Record.Stepping

variable
  (stepping : Stepping members record cluster move next outputs later)

include stepping

/-- What a leader commits has been acknowledged by a majority. -/
theorem committed_of_can
    (stays : move.act.isRestart = false)
    (can : (cluster.node move.node).view.CanCommit) :
    Committed record.line record.acked (cluster.node move.node).view.term
      (cluster.node move.node).view.majority := by
  have holds := (stepping.logging.holding stays).1
  have tail := holds.tail
  have trimmed := (stepping.sound.settled move.node).trimmed
  have ahead := can.ahead
  have elections := stepping.sound.votes.elections
  obtain ⟨-, index, -, -, length⟩ :=
    stepping.logging.voting.sane.view move.node
  have line := stepping.logging.matching.leader move.node can.leader
  have entry := holds.termAt (by omega) can.inLog
  rw [can.currentTerm, ← line] at entry
  -- the entry is of the own term, so it is behind the log of the winner
  have beyond :
      (record.base (cluster.node move.node).view.term).length <
        (cluster.node move.node).view.majority := by
    by_contra short
    have won := stepping.won_of_leader can.leader
    obtain ⟨count, shape⟩ := elections.shape _ won
    rw [shape, List.getElem?_append_left (by omega)] at entry
    exact lt_irrefl _ (elections.below _ _ won (List.mem_of_getElem? entry))
  refine ⟨⟨_, View.isMajority_reaching length move.node, fun member reaches =>
    ?_⟩, by omega, entry⟩
  rcases View.reached_of_reaching length reaches with
    ⟨self, within⟩ | reached
  · have here : member = move.node := Fin.ext (self.trans index)
    rw [here]
    exact stepping.sound.acks.closed _ _ _ _
      (stepping.sound.acks.leading move.node can.leader) (by omega)
  · by_cases here : member = move.node
    · rw [here]
      have inLog := can.inLog
      exact stepping.sound.acks.closed _ _ _ _
        (stepping.sound.acks.leading move.node can.leader) (by omega)
    · exact stepping.sound.acks.progress move.node member can.leader
        (stepping.logging.voting.running stays) here _ reached beyond

/-- What was backed stays so. -/
theorem backed_mono
    {bound higher index : Nat}
    {log longer : List Nat}
    (backed : Backed record.line record.acked bound index log)
    (ordered : bound ≤ higher)
    (part : log <+: longer) :
    Backed later.line later.acked higher index longer :=
  backed.mono stepping.grows stepping.acked_mono ordered part

theorem commits_after
    (member : Fin n) :
    Backed later.line later.acked (next.node member).view.term
      (next.node member).view.commit (later.full member) := by
  by_cases here : member = move.node
  · subst here
    by_cases restarts : move.act.isRestart = true
    · intro positive
      rw [stepping.step.commit_of_restart restarts] at positive
      exact absurd positive (Nat.lt_irrefl 0)
    · have stays : move.act.isRestart = false := by
        simpa using restarts
      have kept := stepping.backed_mono
        (stepping.sound.commits move.node)
        (stepping.step.term_le (Act.not_restart stays))
        (stepping.full_mono stays move.node)
      have effect := stepping.step.commitEffect
      generalize act : move.act = moved at effect
      cases effect with
      | kept same =>
          rw [same]
          exact kept
      | raised can viewed =>
          have line := stepping.logging.matching.leader move.node can.leader
          have same := stepping.full_same stays (by rw [viewed])
          have backed :
              Backed record.line record.acked
                (cluster.node move.node).view.term
                (cluster.node move.node).view.majority
                (record.full move.node) := fun _ =>
            ⟨_, _, stepping.committed_of_can stays can, le_refl _, le_refl _,
              by rw [line]; exact List.take_prefix _ _⟩
          rw [viewed, same]
          exact stepping.backed_mono backed (le_refl _) List.prefix_rfl
      | followed takes =>
          have taken := stepping.taken (act ▸ takes)
          rcases taken.commit with same | ⟨byLeader, inBatch⟩
          · rw [same]
            exact kept
          · have backed := taken.origin.committed.shorten byLeader
              ((List.take_prefix_take_left inBatch).trans taken.front)
            rw [taken.term]
            exact stepping.backed_mono backed (le_refl _) List.prefix_rfl
      | restarted again _ =>
          rw [← act, stays] at again
          cases again
  · rw [stepping.node_other here, stepping.full_other here]
    exact stepping.backed_mono (stepping.sound.commits member) (le_refl _)
      List.prefix_rfl

theorem settled_after
    (member : Fin n) :
    (next.node member).view.Settled := by
  by_cases here : member = move.node
  · subst here
    by_cases restarts : move.act.isRestart = true
    · exact stepping.step.settled_of_restart restarts
    · have stays : move.act.isRestart = false := by
        simpa using restarts
      have holds := (stepping.logging.holding stays).1
      have settled := stepping.sound.settled move.node
      exact stepping.step.settled
        ⟨holds.sentinel, holds.covered, settled.committed⟩
        (stepping.logging.matching.reach _) stepping.logging.unmoved stays
        settled
  · rw [stepping.node_other here]
    exact stepping.sound.settled member

/-- A step keeps the record sound. -/
theorem sound_after :
    later.Sound members next where
  votes := stepping.votes_after
  requests := stepping.requests_after
  acks := stepping.acks_after
  commits := stepping.commits_after
  settled := stepping.settled_after

end Record.Stepping

end

end NvmeofRaft
