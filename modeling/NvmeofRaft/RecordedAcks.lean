import NvmeofRaft.TakenBatch

namespace NvmeofRaft

/-!
# Recorded acknowledgements

What a node has acknowledged it keeps until it is restarted, and a leader takes
a follower's log to reach only what the follower has acknowledged.
-/

section

variable {n : Nat} {members : Membership n} {record later : Record n}
variable {cluster next : Cluster n} {move : Move n} {outputs : Outputs}

namespace Record.Stepping

variable
  (stepping : Stepping members record cluster move next outputs later)

include stepping

/-- A front of a line that is long enough stays the same. -/
theorem line_take
    {term index : Nat}
    (within : index ≤ (record.line term).length) :
    (later.line term).take index = (record.line term).take index :=
  take_of_front (stepping.grows term) within

/-- The acting leader has acknowledged its log. -/
theorem acked_of_leader
    {index : Nat}
    (leader : (next.node move.node).view.role = .leader)
    (within : index ≤ (later.full move.node).length) :
    later.acked move.node (next.node move.node).view.term index := by
  rw [stepping.extended] at within ⊢
  exact Or.inr ⟨rfl, rfl, Or.inl ⟨leader, within⟩⟩

/-- A node that answers with success has acknowledged the batch. -/
theorem acked_of_sent
    {dst index : Nat}
    {req : AppendEntriesRequest}
    {rsp : AppendEntriesResponse}
    (sent : (dst, Payload.appendResponse req rsp) ∈ outputs)
    (success : rsp.success = true)
    (within : index ≤ req.lastIndex) :
    later.acked move.node req.term index := by
  have taken := stepping.taken (stepping.step.success_takesOver sent success)
  rw [← taken.term, stepping.extended]
  exact Or.inr ⟨rfl, rfl, Or.inr ⟨dst, req, rsp, sent, success, within⟩⟩

theorem closed_after
    (member : Fin n)
    (term index smaller : Nat)
    (acks : later.acked member term index)
    (within : smaller ≤ index) :
    later.acked member term smaller := by
  rw [stepping.extended] at acks ⊢
  rcases acks with old | ⟨rfl, rfl, ⟨leader, le⟩ |
    ⟨dst, req, rsp, sent, success, le⟩⟩
  · exact Or.inl (stepping.sound.acks.closed member term index smaller old
      within)
  · exact Or.inr ⟨rfl, rfl, Or.inl ⟨leader, within.trans le⟩⟩
  · exact Or.inr ⟨rfl, rfl, Or.inr
      ⟨dst, req, rsp, sent, success, within.trans le⟩⟩

theorem kept_after
    (member : Fin n)
    (term index : Nat)
    (acks : later.acked member term index) :
    index ≤ (later.line term).length ∧
      ((next.node member).retired = false →
        (later.line term).take index <+: later.full member) := by
  rcases stepping.acked_origin acks with
    old | ⟨rfl, rfl, ⟨leader, within⟩ | ⟨req, takes, within⟩⟩
  · obtain ⟨inLine, front⟩ := stepping.sound.acks.kept member term index old
    refine ⟨inLine.trans (stepping.grows term).length_le, fun active => ?_⟩
    rw [stepping.line_take inLine]
    by_cases here : member = move.node
    · subst here
      have stays := stepping.logging.voting.stays_of_active active
      rw [stepping.step.retired_eq (Act.not_restart stays)] at active
      exact (front active).trans (stepping.full_mono stays _)
    · rw [stepping.node_other here] at active
      rw [stepping.full_other here]
      exact front active
  · rw [stepping.line_of_leader leader]
    exact ⟨within, fun _ => List.take_prefix _ _⟩
  · have taken := stepping.taken takes
    have inLine := taken.origin.lastIndex_le
    rw [taken.term]
    refine ⟨(within.trans inLine).trans (stepping.grows _).length_le,
      fun _ => ?_⟩
    rw [stepping.line_take (within.trans inLine)]
    exact (List.take_prefix_take_left within).trans taken.front

theorem answered_after
    (message : Message)
    (req : AppendEntriesRequest)
    (rsp : AppendEntriesResponse)
    (sent : message ∈ next.net)
    (payload : message.payload = .appendResponse req rsp)
    (success : rsp.success = true) :
    ∃ member : Fin n,
      message.src = member ∧ later.acked member req.term req.lastIndex := by
  rcases stepping.logging.voting.moves.mem_net.mp sent with
    old | ⟨output, new, rfl⟩
  · obtain ⟨member, sentBy, acks⟩ :=
      stepping.sound.acks.answered message req rsp old payload success
    exact ⟨member, sentBy, stepping.acked_mono _ _ _ acks⟩
  · obtain ⟨dst, sentPayload⟩ := output
    dsimp only at payload
    subst payload
    exact ⟨move.node, rfl, stepping.acked_of_sent new success (le_refl _)⟩

/-- A leader has acknowledged its own log. -/
theorem leading_after
    (leader : Fin n)
    (leads : (next.node leader).view.role = .leader) :
    later.acked leader (next.node leader).view.term
      (later.full leader).length := by
  by_cases here : leader = move.node
  · subst here
    exact stepping.acked_of_leader leads (le_refl _)
  · rw [stepping.node_other here] at leads ⊢
    rw [stepping.full_other here]
    exact stepping.acked_mono _ _ _ (stepping.sound.acks.leading leader leads)

/-- A leader takes a log to reach what its owner has acknowledged. -/
theorem progress_after
    (leader peer : Fin n)
    (leads : (next.node leader).view.role = .leader)
    (running : (next.node leader).halted = false)
    (other : peer ≠ leader)
    (index : Nat)
    (reached : (next.node leader).view.Reached peer index)
    (beyond : (later.base (next.node leader).view.term).length < index) :
    later.acked peer (next.node leader).view.term index := by
  by_cases here : leader = move.node
  · subst here
    have stays := stepping.logging.voting.stays_of_leader leads
    by_cases wins : (cluster.node move.node).wins move.act = true
    · obtain ⟨-, applied, viewed⟩ := stepping.step.elected wins running
      have tail := (stepping.logging.holding stays).1.tail
      rw [viewed] at reached
      have bound := View.reached_of_reset reached
      rw [(stepping.step.won wins).2.1, stepping.base_of_wins wins] at beyond
      omega
    · obtain ⟨before, term⟩ :=
        (stepping.step.leads_or_wins (Act.not_restart stays)
          leads).resolve_right fun won => wins won.1
      have active := stepping.logging.voting.running stays
      rw [term, stepping.base_of_won (stepping.won_of_leader before)] at beyond
      rw [term]
      rcases stepping.step.reached stays reached with
        old | won | ⟨position, call, rsp, act, found, success, within⟩
      · exact stepping.acked_mono _ _ _ (stepping.sound.acks.progress _ peer
          before active other index old beyond)
      · exact absurd won wins
      · -- the answer has come from the peer that has acknowledged the batch
        obtain ⟨member, sentBy, acks⟩ := stepping.sound.acks.answered _ _ _
          (stepping.logging.voting.moves.appendReply_delivered act found) rfl
          success
        have same : peer = member := Fin.ext sentBy
        obtain ⟨ends, -, current⟩ := stepping.sound.requests.calls _ _ _ _
          (List.mem_of_getElem? found) rfl
        rcases current before with sameTerm | short
        · rw [← same, sameTerm] at acks
          exact stepping.acked_mono _ _ _
            (stepping.sound.acks.closed _ _ _ _ acks (ends ▸ within))
        · omega
  · rw [stepping.node_other here] at leads running reached beyond ⊢
    rw [stepping.base_of_won (stepping.won_of_leader leads)] at beyond
    exact stepping.acked_mono _ _ _ (stepping.sound.acks.progress leader peer
      leads running other index reached beyond)

theorem acks_after :
    later.Acks next where
  closed := stepping.closed_after
  kept := stepping.kept_after
  answered := stepping.answered_after
  progress := stepping.progress_after
  leading := stepping.leading_after

end Record.Stepping

end

end NvmeofRaft
