import NvmeofRaft.TakenBatch

namespace NvmeofRaft

/-!
# Recorded requests

Every request under way carries a piece of the line of its term and a commit
index that is backed on this line.
-/

/-- A request is sent by an append worker. -/
theorem Node.Step.sending
    {mapped : Nat → Prop}
    {node after : Node}
    {index : Nat}
    {outputs : Outputs}
    (step : node.Step mapped (.appendSend index) after outputs) :
    ∃ fi, node.threads[index]? = some (.appendWorker fi) := by
  cases step with
  | appendHeld found =>
      exact ⟨_, found⟩
  | appendCopying found _ _ =>
      exact ⟨_, found⟩
  | appendSent found _ _ =>
      exact ⟨_, found⟩
  | appendSendThrew found =>
      exact ⟨_, found⟩

section

variable {n : Nat} {members : Membership n} {record later : Record n}
variable {cluster next : Cluster n} {move : Move n} {outputs : Outputs}

namespace Record.Stepping

variable
  (stepping : Stepping members record cluster move next outputs later)

include stepping

theorem origin_mono
    {req : AppendEntriesRequest}
    (origin : Origin record.line record.acked req) :
    Origin later.line later.acked req :=
  origin.mono stepping.grows stepping.acked_mono

/-- A node that sends an append request leads. -/
theorem leads_of_send
    {index : Nat}
    (act : move.act = .appendSend index) :
    (cluster.node move.node).view.role = .leader := by
  have asLeader := stepping.asLeader
  have step := stepping.step
  rw [act] at asLeader step
  obtain ⟨fi, found⟩ := step.sending
  simpa only [Node.sendsAsLeader, found, decide_eq_true_eq] using asLeader

/-- What a leader knows of a request that it builds. -/
theorem built_origin
    {index fi : Nat}
    {call : AppendCall}
    (act : move.act = .appendSend index)
    (built : ((cluster.node move.node).view.clampNext fi).Built fi call)
    (mapped :
      0 < call.lenEntries →
      (cluster.procs move.node).mapped call.next) :
    Origin record.line record.acked call.req ∧
      call.req.lastIndex = max (call.next + call.lenEntries) 1 - 1 ∧
        call.req.lastIndex ≤ (record.full move.node).length ∧
          call.req.term = (cluster.node move.node).view.term := by
  obtain ⟨holds, slots⟩ := stepping.logging.holding (by rw [act]; rfl)
  have inMemory :
      0 < call.lenEntries →
        (cluster.node move.node).view.oldest ≤ call.next :=
    fun more => (slots.inMemory call.next (mapped more)).1
  obtain ⟨carries, within⟩ := built.carries holds inMemory
  have line := stepping.logging.matching.leader move.node
    (stepping.leads_of_send act)
  have term : call.req.term = (cluster.node move.node).view.term :=
    built.sameTerm
  have positive := holds.oldest_pos
  refine ⟨⟨?_, ?_, ?_⟩, ?_, within, term⟩
  · rw [term, line]
    exact carries
  · rw [built.numEntries]
    exact built.located
  · rw [term, line, built.leaderCommit]
    exact stepping.sound.commits move.node
  · rw [AppendEntriesRequest.lastIndex, built.prevLogIndex, built.numEntries]
    omega

theorem sent_after
    (message : Message)
    (req : AppendEntriesRequest)
    (sent : message ∈ next.net)
    (payload : message.payload = .appendRequest req) :
    Origin later.line later.acked req := by
  refine stepping.origin_mono ?_
  rcases stepping.logging.voting.moves.mem_net.mp sent with
    old | ⟨output, new, rfl⟩
  · exact stepping.sound.requests.sent message req old payload
  · have sends := stepping.step.sends new
    dsimp only at payload
    rw [payload] at sends
    generalize act : move.act = moved at sends
    cases sends with
    | appendRequest _ built mapped =>
        exact (stepping.built_origin act built mapped).1
    | copiedRequest found =>
        exact (stepping.sound.requests.copies _ _ _
          (List.mem_of_getElem? found)).copied

theorem copies_after
    (member : Fin n)
    (fi : Nat)
    (call : AppendCall)
    (held : .leaderCopy fi call ∈ (next.node member).threads) :
    Origin later.line later.acked call.req := by
  refine stepping.origin_mono ?_
  by_cases here : member = move.node
  · subst here
    rcases stepping.step.thread_origin held with old | new
    · exact stepping.sound.requests.copies _ fi call old
    · generalize act : move.act = moved at new
      cases new with
      | leaderCopy _ built mapped _ =>
          exact (stepping.built_origin act built mapped).1
  · rw [stepping.node_other here] at held
    exact stepping.sound.requests.copies member fi call held

theorem handlers_after
    (member : Fin n)
    (src : Nat)
    (pending : PendingAppend)
    (held : .appendHandler src pending ∈ (next.node member).threads) :
    Origin later.line later.acked pending.req ∧
      pending.Meets (later.full member)
        ((later.line pending.req.term).take pending.req.lastIndex) ∧
        (next.node member).floor ≤ pending.req.term := by
  have known :
      Origin record.line record.acked pending.req ∧
        pending.Meets (later.full member)
          ((record.line pending.req.term).take pending.req.lastIndex) ∧
          (next.node member).floor ≤ pending.req.term := by
    by_cases here : member = move.node
    · subst here
      have stays := stepping.logging.voting.stays_of_thread held
      obtain ⟨added, grown⟩ := stepping.full_mono stays move.node
      rw [← grown, stepping.step.floor_eq (Act.not_restart stays)]
      rcases stepping.step.thread_origin held with old | new
      · obtain ⟨origin, meets, floor⟩ :=
          stepping.sound.requests.handlers _ src pending old
        exact ⟨origin, meets.grow, floor⟩
      · generalize act : move.act = moved at new
        cases new with
        | @appendHandler src req accepts _ _ =>
            have origin := stepping.sound.requests.sent _ req
              (stepping.logging.voting.moves.append_delivered act) rfl
            have floor := stepping.keepsFloor
            rw [act] at floor
            simp only [Node.keepsFloor, accepts, decide_true, Bool.not_true,
              Bool.false_or, decide_eq_true_eq] at floor
            have holds := (stepping.logging.holding stays).1.of_sameLog
              ((cluster.node move.node).view.revoted_meet req.term).sameLog
            exact ⟨origin, (View.pending_meets holds
              (stepping.logging.matching.follows _)
              (stepping.carried_follows _ _)
              (stepping.logging.matching.positive _) origin.carries
              accepts).grow, floor⟩
    · rw [stepping.node_other here] at held ⊢
      rw [stepping.full_other here]
      exact stepping.sound.requests.handlers member src pending held
  obtain ⟨origin, meets, floor⟩ := known
  refine ⟨stepping.origin_mono origin, ?_, floor⟩
  rw [take_of_front (stepping.grows _) origin.lastIndex_le]
  exact meets

theorem calls_after
    (member : Fin n)
    (thread : Thread)
    (fi : Nat)
    (call : AppendCall)
    (held : thread ∈ (next.node member).threads)
    (calls : thread.call? = some (fi, call)) :
    call.req.lastIndex = max (call.next + call.lenEntries) 1 - 1 ∧
      call.req.lastIndex ≤ (later.full member).length ∧
        ((next.node member).view.role = .leader →
          call.req.term = (next.node member).view.term ∨
            call.req.lastIndex ≤
              (later.base (next.node member).view.term).length) := by
  by_cases here : member = move.node
  · subst here
    have stays := stepping.logging.voting.stays_of_thread held
    have longer := (stepping.full_mono stays move.node).length_le
    have known :
        call.req.lastIndex = max (call.next + call.lenEntries) 1 - 1 ∧
          call.req.lastIndex ≤ (record.full move.node).length ∧
            ((cluster.node move.node).view.role = .leader →
              call.req.term = (cluster.node move.node).view.term ∨
                call.req.lastIndex ≤
                  (record.base
                    (cluster.node move.node).view.term).length) := by
      rcases stepping.step.thread_origin held with old | new
      · exact stepping.sound.requests.calls _ thread fi call old calls
      · generalize act : move.act = moved at new
        cases new with
        | leaderCopy _ built mapped _ =>
            cases calls
            obtain ⟨-, ends, within, term⟩ :=
              stepping.built_origin act built mapped
            exact ⟨ends, within, fun _ => Or.inl term⟩
        | appendCall _ built mapped _ =>
            cases calls
            obtain ⟨-, ends, within, term⟩ :=
              stepping.built_origin act built mapped
            exact ⟨ends, within, fun _ => Or.inl term⟩
        | copiedCall copying =>
            cases calls
            have before :=
              stepping.sound.requests.calls _ _ _ _ copying rfl
            exact before
        | _ => cases calls
    obtain ⟨ends, within, current⟩ := known
    refine ⟨ends, within.trans longer, fun leader => ?_⟩
    rcases stepping.step.leads_or_wins (Act.not_restart stays) leader with
      ⟨before, term⟩ | ⟨wins, term⟩
    · rw [term, stepping.base_of_won (stepping.won_of_leader before)]
      exact current before
    · rw [term, stepping.base_of_wins wins]
      exact Or.inr within
  · rw [stepping.node_other here] at held ⊢
    rw [stepping.full_other here]
    obtain ⟨ends, within, current⟩ :=
      stepping.sound.requests.calls member thread fi call held calls
    refine ⟨ends, within, fun leader => ?_⟩
    rw [stepping.base_of_won (stepping.won_of_leader leader)]
    exact current leader

theorem requests_after :
    later.Requests next where
  sent := stepping.sent_after
  copies := stepping.copies_after
  handlers := stepping.handlers_after
  calls := stepping.calls_after

end Record.Stepping

end

end NvmeofRaft
