import NvmeofRaft.Batch
import NvmeofRaft.Leadership

namespace NvmeofRaft

/-!
# Log matching

The full logs of the nodes and the lines of the terms are carried beside the
cluster.  Every full log follows the lines, and so does everything that is on
its way to a follower.
-/

section

variable {n : Nat} {members : Membership n}
variable {cast : Fin n → Nat → Nat → Prop}
variable {full : Fin n → List Nat} {line : Nat → List Nat}
variable {cluster next : Cluster n} {move : Move n} {outputs : Outputs}

/-- The full logs after a step. -/
def fullAfter
    (full : Fin n → List Nat)
    (cluster : Cluster n)
    (move : Move n)
    (next : Cluster n) :
    Fin n → List Nat :=
  Function.update full move.node
    ((cluster.node move.node).fullAfter move.act (next.node move.node)
      (full move.node))

/-- The lines after a step: the line of a leader is its full log. -/
def lineAfter
    (line : Nat → List Nat)
    (full : Fin n → List Nat)
    (actor : Fin n)
    (next : Cluster n) :
    Nat → List Nat :=
  if (next.node actor).view.role = .leader then
    Function.update line (next.node actor).view.term (full actor)
  else
    line

/-- What the logs, the lines and the requests have in common. -/
structure Matching
    (full : Fin n → List Nat)
    (line : Nat → List Nat)
    (cluster : Cluster n) : Prop where
  follows : ∀ member, Follows line (full member)
  holds :
    ∀ member,
      (cluster.node member).view.Holds (full member) ∧
          (cluster.procs member).server.SlotsHeld ∨
        (cluster.node member).view.Blank
  reach : ∀ member, (cluster.node member).HandlersReach
  reign : ∀ member, (cluster.node member).Reign
  leader :
    ∀ member,
      (cluster.node member).view.role = .leader →
      line (cluster.node member).view.term = full member
  outrun :
    ∀ member src pending,
      (cluster.node member).view.role = .leader →
      .appendHandler src pending ∈ (cluster.node member).threads →
      pending.newTail + pending.skipEntries <
        (cluster.node member).view.tail
  won :
    ∀ term, line term ≠ [] →
      ∃ member, .becameLeader term ∈ (cluster.node member).history
  requests :
    ∀ message req,
      message ∈ cluster.net →
      message.payload = .appendRequest req →
      Slice line req
  copies :
    ∀ member fi call,
      .leaderCopy fi call ∈ (cluster.node member).threads →
      Slice line call.req
  handlers :
    ∀ member src pending,
      .appendHandler src pending ∈ (cluster.node member).threads →
      ∃ log,
        Follows line log ∧ Carries pending.req log ∧
          pending.Meets (full member) log

/-- A slice stays one while the lines grow. -/
theorem Slice.mono
    {line' : Nat → List Nat}
    {req : AppendEntriesRequest}
    (slice : Slice line req)
    (grows : ∀ term, line term <+: line' term) :
    Slice line' req := by
  obtain ⟨log, follows, carries⟩ := slice
  exact ⟨log, follows.mono grows, carries⟩

/-- The leader's copy of the data leaves the entries alone. -/
theorem Slice.copied
    {call : AppendCall}
    (slice : Slice line call.req) :
    Slice line call.copied.req := by
  obtain ⟨log, follows, carries⟩ := slice
  exact ⟨log, follows, carries.copied⟩

/-- Entries have positive terms. -/
theorem Matching.positive
    (matching : Matching full line cluster)
    (member : Fin n) :
    0 ∉ full member := by
  intro held
  obtain ⟨leader, became⟩ :=
    matching.won 0 ((matching.follows member).line_ne_nil held)
  exact lt_irrefl 0 ((matching.reign leader).positive 0 became)

/-- What a log holds it holds as long as it stays. -/
theorem View.Holds.of_sameLog
    {before after : View}
    {log : List Nat}
    (holds : before.Holds log)
    (same : before.SameLog after) :
    after.Holds log := by
  have grown := holds.grown (show after.log = before.log ++ [] by
    rw [same.log, List.append_nil]) same.tail
  rwa [List.append_nil] at grown

/-- The full log of the moving node. -/
theorem fullAfter_self :
    fullAfter full cluster move next move.node =
      (cluster.node move.node).fullAfter move.act (next.node move.node)
        (full move.node) :=
  Function.update_self _ _ _

theorem fullAfter_other
    {member : Fin n}
    (other : member ≠ move.node) :
    fullAfter full cluster move next member = full member :=
  Function.update_of_ne other _ _

/-- The line of a leader's term is its full log. -/
theorem lineAfter_leader
    (line : Nat → List Nat)
    (full : Fin n → List Nat)
    (leader : (next.node move.node).view.role = .leader) :
    lineAfter line full move.node next (next.node move.node).view.term =
      full move.node := by
  rw [lineAfter, if_pos leader, Function.update_self]

/-- What the step lemmas know about logs. -/
structure Matching.Stepping
    (members : Membership n)
    (cast : Fin n → Nat → Nat → Prop)
    (full : Fin n → List Nat)
    (line : Nat → List Nat)
    (cluster : Cluster n)
    (move : Move n)
    (next : Cluster n)
    (outputs : Outputs) : Prop where
  voting : Ballots.Stepping members cast cluster move next outputs
  matching : Matching full line cluster
  unmoved : (cluster.node move.node).tailUnmoved move.act = true
  agrees : (cluster.node move.node).skipsAgree move.act = true

namespace Matching.Stepping

variable
  (stepping : Stepping members cast full line cluster move next outputs)

include stepping

theorem step :
    (cluster.node move.node).Step (cluster.procs move.node).mapped move.act
      (next.node move.node) outputs :=
  stepping.voting.moves.step

/-- A node that moves without a restart keeps a log. -/
theorem holding
    (stays : move.act.isRestart = false) :
    (cluster.node move.node).view.Holds (full move.node) ∧
      (cluster.procs move.node).server.SlotsHeld := by
  rcases stepping.matching.holds move.node with holding | blank
  · exact holding
  · have sentinel :=
      (stepping.voting.sane.wellformed move.node).sentinel
        (stepping.voting.running stays)
    exact absurd blank.log sentinel

theorem reign_after
    (member : Fin n) :
    (next.node member).Reign := by
  by_cases here : member = move.node
  · subst here
    exact stepping.voting.reign (stepping.matching.reign _)
  · rw [stepping.voting.moves.node_other here]
    exact stepping.matching.reign member

/-- The line of a term that is being won is empty. -/
theorem line_of_wins
    (wins : (cluster.node move.node).wins move.act = true) :
    line (cluster.node move.node).view.term = [] := by
  by_contra nonempty
  obtain ⟨member, became⟩ := stepping.matching.won _ nonempty
  exact stepping.voting.not_won_before (stepping.matching.reign _) wins
    member became

/-- Lines grow. -/
theorem grows
    (term : Nat) :
    line term <+:
      lineAfter line (fullAfter full cluster move next) move.node next
        term := by
  unfold lineAfter
  split
  · rename_i leader
    by_cases here : term = (next.node move.node).view.term
    · subst here
      rw [Function.update_self, fullAfter_self]
      have stays := stepping.voting.stays_of_leader leader
      rcases stepping.step.leads_or_wins (Act.not_restart stays) leader with
        ⟨before, same⟩ | ⟨wins, same⟩
      · rw [same, stepping.matching.leader _ before]
        exact Node.prefix_fullAfter stays
      · rw [same, stepping.line_of_wins wins]
        exact List.nil_prefix
    · rw [Function.update_of_ne here]
  · exact List.prefix_rfl

/-- The handler that finishes a batch has the log of the sender. -/
theorem completes
    {view : View}
    {pending : PendingAppend}
    {log : List Nat}
    (holds : view.Holds (full move.node))
    (follows : Follows line log)
    (carries : Carries pending.req log)
    (meets : pending.Meets (full move.node) log)
    (reaches : pending.Reaches)
    (fits : pending.Fits view)
    (agrees : view.skipAgrees pending = true)
    (stays : move.act.isRestart = false)
    (sameLog : view.log = (cluster.node move.node).view.log)
    (viewed : (next.node move.node).view = view.complete pending) :
    fullAfter full cluster move next move.node = log := by
  have whole := carries.metas_length
  have tail := holds.tail
  have unmoved := fits whole
  have built : (next.node move.node).view.log =
      (cluster.node move.node).view.log ++
        pending.req.terms.drop pending.skipEntries := by
    rw [viewed, ← sameLog]
    simp only [View.complete, View.followCommit, View.build, whole,
      if_true, AppendEntriesRequest.terms, List.map_drop]
  rw [fullAfter_self, Node.fullAfter_grown stays built]
  exact meets.takes_over holds (stepping.matching.follows _) follows carries
    (by omega) agrees reaches

/-- A delivered request that is accepted meets the log. -/
theorem accepted_meets
    {src : Nat}
    {req : AppendEntriesRequest}
    (act : move.act = .handleAppend src req)
    (accepts :
      ((cluster.node move.node).view.meet req.term).Accepts req) :
    ∃ log,
      Follows line log ∧ Carries req log ∧
        (((cluster.node move.node).view.meet req.term).pending req).Meets
          (full move.node) log := by
  obtain ⟨log, follows, carries⟩ := stepping.matching.requests _ req
    (stepping.voting.moves.append_delivered act) rfl
  have holds := (stepping.holding (by rw [act]; rfl)).1.of_sameLog
    ((cluster.node move.node).view.revoted_meet req.term).sameLog
  exact ⟨log, follows, carries,
    View.pending_meets holds (stepping.matching.follows _) follows
      (stepping.matching.positive _) carries accepts⟩

/-- The full log of the moving node follows the lines. -/
theorem follows_after :
    Follows
      (lineAfter line (fullAfter full cluster move next) move.node next)
      (fullAfter full cluster move next move.node) := by
  have old : Follows
      (lineAfter line (fullAfter full cluster move next) move.node next)
      (full move.node) :=
    (stepping.matching.follows _).mono stepping.grows
  have effect := stepping.step.logEffect
  have agrees := stepping.agrees
  have unmoved := stepping.unmoved
  generalize sameAct : move.act = act at effect agrees unmoved
  cases effect with
  | @kept act _ same =>
      by_cases restarts : move.act.isRestart = true
      · rw [fullAfter_self, Node.fullAfter_restart restarts]
        exact follows_nil
      · rw [fullAfter_self, Node.fullAfter_same (by simpa using restarts) same.log]
        exact old
  | won pc quorum log tail =>
      have stays : move.act.isRestart = false := by rw [sameAct]; rfl
      have wins : (cluster.node move.node).wins move.act = true := by
        rw [sameAct]
        simp [Node.wins, pc, quorum]
      obtain ⟨leader, sameTerm, -⟩ := stepping.step.won wins
      have grown : fullAfter full cluster move next move.node =
          full move.node ++ [(cluster.node move.node).view.term] := by
        rw [fullAfter_self, Node.fullAfter_grown stays log]
      have ends := lineAfter_leader line
        (fullAfter full cluster move next) leader
      rw [sameTerm] at ends
      rw [grown] at ends ⊢
      refine old.append (fun other here => List.mem_singleton.mp here) ?_
      exact ends ▸ List.prefix_rfl
  | @pushed sink commands _ leads viewed =>
      have stays : move.act.isRestart = false := by rw [sameAct]; rfl
      have leader : (next.node move.node).view.role = .leader := by
        rw [viewed]
        exact leads
      have grown : fullAfter full cluster move next move.node =
          full move.node ++ List.replicate commands.length
            (next.node move.node).view.term := by
        rw [fullAfter_self, Node.fullAfter_grown stays (by rw [viewed]; rfl),
          viewed]
        rfl
      have ends := lineAfter_leader line
        (fullAfter full cluster move next) leader
      rw [grown] at ends ⊢
      refine old.append (fun other here => List.eq_of_mem_replicate here) ?_
      exact ends ▸ List.prefix_rfl
  | @completed src req _ accepts brings copied viewed =>
      obtain ⟨log, follows, carries, meets⟩ :=
        stepping.accepted_meets sameAct accepts
      have same := ((cluster.node move.node).view.revoted_meet
        req.term).sameLog
      have holds := (stepping.holding (by rw [sameAct]; rfl)).1.of_sameLog
        same
      have skip : ((cluster.node move.node).view.meet req.term).skipAgrees
          (((cluster.node move.node).view.meet req.term).pending req) =
            true := by
        simpa [Node.skipsAgree, accepts, brings, copied] using agrees
      have started : 0 < ((cluster.node move.node).view.meet
          req.term).tail := by
        rw [holds.tail]
        exact Nat.succ_pos _
      rw [stepping.completes holds follows carries meets
        (View.pending_reaches brings) (View.pending_fits started accepts)
        skip (by rw [sameAct]; rfl) same.log viewed]
      exact follows.mono stepping.grows
  | @finished index src pending _ found viewed =>
      have member := List.mem_of_getElem? found
      obtain ⟨log, follows, carries, meets⟩ :=
        stepping.matching.handlers _ src pending member
      have skip : (cluster.node move.node).view.skipAgrees pending = true := by
        simpa [Node.skipsAgree, found] using agrees
      rw [stepping.completes (stepping.holding (by rw [sameAct]; rfl)).1
        follows carries meets (stepping.matching.reach _ _ _ member)
        (Node.fits_of_tailUnmoved unmoved found) skip (by rw [sameAct]; rfl)
        rfl viewed]
      exact follows.mono stepping.grows
  | trimmed _ viewed =>
      rw [fullAfter_self, sameAct, Node.fullAfter_trimmed viewed]
      exact old
  | restarted _ =>
      rw [fullAfter_self, Node.fullAfter_restart (by rw [sameAct]; rfl)]
      exact follows_nil
  | restartThrew _ _ =>
      rw [fullAfter_self, Node.fullAfter_restart (by rw [sameAct]; rfl)]
      exact follows_nil

/-- The memory of the moving node keeps the end of its full log. -/
theorem holds_after :
    (next.node move.node).view.Holds
          (fullAfter full cluster move next move.node) ∧
        (next.procs move.node).server.SlotsHeld ∨
      (next.node move.node).view.Blank := by
  rw [fullAfter_self]
  by_cases restarts : move.act.isRestart = true
  · rw [Node.fullAfter_restart restarts]
    rcases stepping.step.restart_holds restarts with holds | blank
    · refine Or.inl ⟨holds, slotsHeld_of_empty ?_ ?_⟩
      · have stepped := stepping.voting.moves.stepped
        cases act : move.act with
        | restart kernel cacheLost =>
            rw [act] at stepped
            have started := congrArg Prod.fst (Option.some.inj stepped)
            dsimp only at started
            rw [← started]
            exact startUp_slots _ _ _
        | _ =>
            rw [act] at restarts
            cases restarts
      · have tail : (next.procs move.node).server.view.tail = 0 + 1 :=
          holds.tail
        omega
    · exact Or.inr blank
  · have stays : move.act.isRestart = false := by
      simpa using restarts
    obtain ⟨holds, slots⟩ := stepping.holding stays
    exact Or.inl ⟨stepping.step.holds stays holds
        (stepping.matching.reach _) stepping.unmoved,
      Process.step_slotsHeld (stepping.voting.sane.wellformed _) holds
        (stepping.matching.reach _) stepping.unmoved stays slots
        stepping.voting.moves.stepped⟩

/-- A leader's line is its full log. -/
theorem leader_after
    (member : Fin n)
    (leader : (next.node member).view.role = .leader) :
    lineAfter line (fullAfter full cluster move next) move.node next
        (next.node member).view.term =
      fullAfter full cluster move next member := by
  by_cases here : member = move.node
  · subst here
    exact lineAfter_leader line (fullAfter full cluster move next) leader
  · have became := ((stepping.reign_after member).leading leader).2
    rw [fullAfter_other here]
    unfold lineAfter
    split
    · rename_i actorLeads
      have otherTerm : (next.node member).view.term ≠
          (next.node move.node).view.term := by
        intro same
        have actorBecame :=
          ((stepping.reign_after move.node).leading actorLeads).2
        rw [← same] at actorBecame
        exact here ((Ballots.step stepping.voting).leaders_unique became
          actorBecame)
      rw [Function.update_of_ne otherTerm]
      rw [stepping.voting.moves.node_other here] at leader ⊢
      exact stepping.matching.leader member leader
    · rw [stepping.voting.moves.node_other here] at leader ⊢
      exact stepping.matching.leader member leader

/-- The handlers of a leader find a moved tail. -/
theorem outrun_after
    (src : Nat)
    (pending : PendingAppend)
    (leader : (next.node move.node).view.role = .leader)
    (held : .appendHandler src pending ∈ (next.node move.node).threads) :
    pending.newTail + pending.skipEntries <
      (next.node move.node).view.tail := by
  have stays := stepping.voting.stays_of_leader leader
  have holds := (stepping.holding stays).1
  have tail := holds.tail
  have tailAfter := (stepping.step.holds stays holds
    (stepping.matching.reach _) stepping.unmoved).tail
  have longer : (full move.node).length ≤
      ((cluster.node move.node).fullAfter move.act (next.node move.node)
        (full move.node)).length :=
    (Node.prefix_fullAfter stays).length_le
  rcases stepping.step.thread_origin held with old | new
  · rcases stepping.step.leads_or_wins (Act.not_restart stays) leader with
      ⟨before, -⟩ | ⟨wins, -⟩
    · have bound := stepping.matching.outrun _ src pending before old
      omega
    · obtain ⟨log, -, -, meets⟩ :=
        stepping.matching.handlers _ src pending old
      have within := meets.within
      have more := (stepping.step.won wins).2.2.2.2.2
      omega
  · generalize move.act = act at new
    cases new with
    | appendHandler accepts _ viewed =>
        rw [viewed, accepts.follower] at leader
        cases leader

theorem won_after
    (term : Nat)
    (some :
      lineAfter line (fullAfter full cluster move next) move.node next
        term ≠ []) :
    ∃ member, .becameLeader term ∈ (next.node member).history := by
  have before :
      line term ≠ [] →
        ∃ member, .becameLeader term ∈ (next.node member).history := by
    intro old
    obtain ⟨member, became⟩ := stepping.matching.won term old
    refine ⟨member, ?_⟩
    by_cases here : member = move.node
    · subst here
      exact stepping.step.history_mono became
    · rw [stepping.voting.moves.node_other here]
      exact became
  unfold lineAfter at some
  split at some
  · rename_i leader
    by_cases here : term = (next.node move.node).view.term
    · subst here
      exact ⟨move.node, ((stepping.reign_after _).leading leader).2⟩
    · rw [Function.update_of_ne here] at some
      exact before some
  · exact before some

/-- A request that is built carries a piece of the full log. -/
theorem built_slice
    {fi : Nat}
    {call : AppendCall}
    (stays : move.act.isRestart = false)
    (built : ((cluster.node move.node).view.clampNext fi).Built fi call)
    (mapped :
      0 < call.lenEntries →
      (cluster.procs move.node).mapped call.next) :
    Slice line call.req := by
  obtain ⟨holds, slots⟩ := stepping.holding stays
  refine ⟨_, ?_, (built.carries holds ?_).1⟩
  · exact (stepping.matching.follows _).of_front (List.take_prefix _ _)
  · intro more
    exact (slots.inMemory call.next (mapped more)).1

theorem requests_after
    (message : Message)
    (req : AppendEntriesRequest)
    (sent : message ∈ next.net)
    (payload : message.payload = .appendRequest req) :
    Slice line req := by
  rcases stepping.voting.moves.mem_net.mp sent with old | ⟨output, new, rfl⟩
  · exact stepping.matching.requests message req old payload
  · have sends := stepping.step.sends new
    have built := fun (stays : move.act.isRestart = false) fi call =>
      @built_slice _ _ _ _ _ _ _ _ _ stepping fi call stays
    dsimp only at payload
    rw [payload] at sends
    generalize move.act = act at sends built
    cases sends with
    | appendRequest _ request mapped =>
        exact built rfl _ _ request mapped
    | copiedRequest found =>
        exact (stepping.matching.copies _ _ _
          (List.mem_of_getElem? found)).copied

theorem copies_after
    (fi : Nat)
    (call : AppendCall)
    (held : .leaderCopy fi call ∈ (next.node move.node).threads) :
    Slice line call.req := by
  rcases stepping.step.thread_origin held with old | new
  · exact stepping.matching.copies _ fi call old
  · have built := fun (stays : move.act.isRestart = false) =>
      @built_slice _ _ _ _ _ _ _ _ _ stepping fi call stays
    generalize move.act = act at new built
    cases new with
    | leaderCopy _ request mapped _ =>
        exact built rfl request mapped

theorem handlers_after
    (src : Nat)
    (pending : PendingAppend)
    (held : .appendHandler src pending ∈ (next.node move.node).threads) :
    ∃ log,
      Follows line log ∧ Carries pending.req log ∧
        pending.Meets (fullAfter full cluster move next move.node) log := by
  have stays := stepping.voting.stays_of_thread held
  have longer : fullAfter full cluster move next move.node =
      full move.node ++ (next.node move.node).view.log.drop
        (cluster.node move.node).view.log.length := by
    rw [fullAfter_self, Node.fullAfter, stays]
    rfl
  rw [longer]
  have found :
      ∃ log,
        Follows line log ∧ Carries pending.req log ∧
          pending.Meets (full move.node) log := by
    rcases stepping.step.thread_origin held with old | new
    · exact stepping.matching.handlers _ src pending old
    · generalize sameAct : move.act = act at new
      cases new with
      | appendHandler accepts _ _ =>
          exact stepping.accepted_meets sameAct accepts
  obtain ⟨log, follows, carries, meets⟩ := found
  exact ⟨log, follows, carries, meets.grow⟩

end Matching.Stepping

/-- A step keeps the logs on the lines. -/
theorem Matching.step
    (stepping :
      Matching.Stepping members cast full line cluster move next outputs) :
    Matching (fullAfter full cluster move next)
      (lineAfter line (fullAfter full cluster move next) move.node next)
      next := by
  have other :
      ∀ {member : Fin n}, member ≠ move.node →
        next.node member = cluster.node member :=
    fun away => stepping.voting.moves.node_other away
  have old := stepping.matching
  refine ⟨?_, ?_, ?_, stepping.reign_after, stepping.leader_after, ?_,
    stepping.won_after, ?_, ?_, ?_⟩
  · intro member
    by_cases here : member = move.node
    · subst here
      exact stepping.follows_after
    · rw [fullAfter_other here]
      exact (old.follows member).mono stepping.grows
  · intro member
    by_cases here : member = move.node
    · subst here
      exact stepping.holds_after
    · rw [fullAfter_other here, other here,
        stepping.voting.moves.others member here]
      exact old.holds member
  · intro member
    by_cases here : member = move.node
    · subst here
      exact stepping.step.handlersReach (old.reach _)
    · rw [other here]
      exact old.reach member
  · intro member src pending leader held
    by_cases here : member = move.node
    · subst here
      exact stepping.outrun_after src pending leader held
    · rw [other here] at leader held ⊢
      exact old.outrun member src pending leader held
  · intro message req sent payload
    exact (stepping.requests_after message req sent payload).mono
      stepping.grows
  · intro member fi call held
    by_cases here : member = move.node
    · subst here
      exact (stepping.copies_after fi call held).mono stepping.grows
    · rw [other here] at held
      exact (old.copies member fi call held).mono stepping.grows
  · intro member src pending held
    by_cases here : member = move.node
    · subst here
      obtain ⟨log, follows, carries, meets⟩ :=
        stepping.handlers_after src pending held
      exact ⟨log, follows.mono stepping.grows, carries, meets⟩
    · rw [other here] at held
      rw [fullAfter_other here]
      obtain ⟨log, follows, carries, meets⟩ :=
        old.handlers member src pending held
      exact ⟨log, follows.mono stepping.grows, carries, meets⟩

/-- At the start all logs and lines are empty. -/
theorem start_matching
    (members : Membership n)
    (settings : Fin n → Settings) :
    Matching (fun _ => []) (fun _ => []) (members.start settings) := by
  have fresh : ∀ member, ∃ halted,
      (members.start settings).node member =
        members.freshNode member halted :=
    fun member => boot_node members settings member
  have noThreads : ∀ member,
      ((members.start settings).node member).threads = [] := by
    intro member
    obtain ⟨halted, same⟩ := fresh member
    rw [same]
    rfl
  have noLeader : ∀ member,
      ((members.start settings).node member).view.role ≠ .leader := by
    intro member
    obtain ⟨halted, same⟩ := fresh member
    rw [same]
    cases halted <;> exact ServerState.noConfusion
  refine ⟨?_, ?_, ?_, start_reign members settings, ?_, ?_, ?_, ?_, ?_, ?_⟩
  · intro member
    exact follows_nil
  · intro member
    obtain ⟨halted, same⟩ := fresh member
    cases halted with
    | true =>
        rw [same]
        exact Or.inr ⟨rfl, rfl⟩
    | false =>
        have tail : ((members.start settings).procs member).server.view.tail =
            1 :=
          congrArg (fun node : Node => node.view.tail) same
        rw [same]
        refine Or.inl ⟨⟨Nat.one_pos, rfl, List.nil_suffix, ?_⟩,
          slotsHeld_of_empty (startUp_slots _ _ _) (by omega)⟩
        intro nonempty
        exact absurd rfl nonempty
  · intro member src pending held
    rw [noThreads] at held
    cases held
  · intro member leader
    exact absurd leader (noLeader member)
  · intro member src pending leader
    exact absurd leader (noLeader member)
  · intro term some
    exact absurd rfl some
  · intro message req sent
    cases sent
  · intro member fi call held
    rw [noThreads] at held
    cases held
  · intro member src pending held
    rw [noThreads] at held
    cases held

/--
The log condition on a step of the cluster: the election condition, a tail that
has not moved while a handler had released `mu`, and agreement on the last
entry that a handler skips when it appends the rest of a batch.
-/
def logsKept
    (cluster : Cluster n)
    (move : Move n) :
    Bool :=
  electionsKept cluster move &&
    (cluster.node move.node).tailUnmoved move.act &&
      (cluster.node move.node).skipsAgree move.act

/-- What a run without restarts keeps about logs. -/
structure Cluster.Logging
    (members : Membership n)
    (cluster : Cluster n) : Prop where
  voting : cluster.Voting members
  matching : ∃ full line, Matching full line cluster

theorem logging_step
    (logging : cluster.Logging members)
    (allowed : logsKept cluster move = true)
    (stepped : cluster.step move = some next) :
    next.Logging members := by
  simp only [logsKept, Bool.and_eq_true] at allowed
  obtain ⟨⟨elections, unmoved⟩, agrees⟩ := allowed
  have sane := logging.voting.sane
  obtain ⟨outputs, moves⟩ := Cluster.step_moves sane stepped
  obtain ⟨cast, ballots⟩ := logging.voting.ballots
  obtain ⟨full, line, matching⟩ := logging.matching
  have keeps : (cluster.node move.node).keepsBallot move.act = true := by
    simp only [electionsKept, Bool.and_eq_true] at elections
    exact elections.2
  have abstains : (cluster.node move.node).abstains move.act = true := by
    simp [Node.abstains, logging.voting.active]
  exact ⟨voting_step logging.voting elections stepped, _, _,
    Matching.step ⟨⟨sane, ballots, moves, keeps, abstains⟩, matching, unmoved,
      agrees⟩⟩

end

/-- The entry of an index is still in memory. -/
def Server.Remembers
    (server : Server)
    (logIdx : Nat) : Prop :=
  server.oldestLogIndex ≤ logIdx ∧ logIdx < server.ring.tailLogIndex

instance
    (server : Server)
    (logIdx : Nat) :
    Decidable (server.Remembers logIdx) :=
  inferInstanceAs (Decidable (_ ∧ _))

/--
Two nodes with an entry of the same index and term have the same terms at all
smaller indices that both of them still have in memory.
-/
def Cluster.LogsMatch
    {n : Nat}
    (cluster : Cluster n) : Prop :=
  ∀ first second logIdx earlier,
    (cluster.procs first).server.Remembers logIdx →
    (cluster.procs second).server.Remembers logIdx →
    ((cluster.procs first).server.logAt logIdx).term =
      ((cluster.procs second).server.logAt logIdx).term →
    earlier < logIdx →
    (cluster.procs first).server.Remembers earlier →
    (cluster.procs second).server.Remembers earlier →
    ((cluster.procs first).server.logAt earlier).term =
      ((cluster.procs second).server.logAt earlier).term

section

variable {n : Nat} {members : Membership n} {cluster : Cluster n}
variable {full : Fin n → List Nat} {line : Nat → List Nat}

/-- An entry in memory is the one of the full log. -/
theorem Matching.remembered
    (matching : Matching full line cluster)
    {member : Fin n}
    {logIdx : Nat}
    (remembers : (cluster.procs member).server.Remembers logIdx) :
    0 < logIdx ∧
      (full member)[logIdx - 1]? =
        some ((cluster.procs member).server.logAt logIdx).term := by
  obtain ⟨notBelow, inLog⟩ := remembers
  rw [oldestLogIndex_eq] at notBelow
  rw [logAt_term]
  rcases matching.holds member with ⟨holds, -⟩ | blank
  · exact ⟨Nat.lt_of_lt_of_le holds.oldest_pos notBelow,
      holds.termAt notBelow inLog⟩
  · have tail : (cluster.procs member).server.ring.tailLogIndex = 0 :=
      blank.tail
    omega

/-- Full logs on the lines match. -/
theorem Matching.logsMatch
    (matching : Matching full line cluster) :
    cluster.LogsMatch := by
  intro first second logIdx earlier inFirst inSecond sameTerm lower
    earlierFirst earlierSecond
  obtain ⟨-, firstEntry⟩ := matching.remembered inFirst
  obtain ⟨-, secondEntry⟩ := matching.remembered inSecond
  obtain ⟨positive, firstEarlier⟩ := matching.remembered earlierFirst
  obtain ⟨-, secondEarlier⟩ := matching.remembered earlierSecond
  rw [← sameTerm] at secondEntry
  have same := (matching.follows first).agree (matching.follows second)
    firstEntry secondEntry
  have atEarlier := congrArg (fun log => log[earlier - 1]?) same
  rw [List.getElem?_take_of_lt (by omega),
    List.getElem?_take_of_lt (by omega), firstEarlier,
    secondEarlier] at atEarlier
  exact Option.some.inj atEarlier

/--
Log matching: in a run without restarts that meets the election condition, in
which no tail moves under a handler and no handler skips an entry that differs
from the one in its batch, the logs of any two nodes match.
-/
theorem logs_match
    {settings : Fin n → Settings}
    {moves : List (Move n)}
    (run :
      runWhile logsKept Cluster.step (members.start settings) moves =
        some cluster) :
    cluster.LogsMatch := by
  have logging : cluster.Logging members :=
    runWhile_invariant (Cluster.Logging members)
      (fun _ _ _ logging allowed stepped =>
        logging_step logging allowed stepped)
      ⟨start_voting members settings, _, _, start_matching members settings⟩
      run
  obtain ⟨full, line, matching⟩ := logging.matching
  exact matching.logsMatch

end

/-- The request for a no-op entry and one command, on an empty log. -/
def twoEntries
    (leader : Fin 3)
    (term : Nat) :
    AppendEntriesRequest where
  term := term
  leaderId := leader + 1
  prevLogIndex := 0
  prevLogTerm := 0
  leaderCommit := 0
  leaderPbaSrc := 4608
  logBlockLength := 2
  numEntries := 2
  slotsPerEntry := 1
  startSlot := 0
  leaderDevIndex := leader
  dataAlreadyCopied := false
  entryMetas := [{ term := term, cmdLen := 0 }, { term := term, cmdLen := 1 }]

/-- A leader with one vote worker left appends a command and sends it. -/
def oneCommand (leader : Fin 3) : List (Move 3) :=
  [moveOf leader (.apply 0 [[1]]), moveOf leader (.applySpawn 1),
   moveOf leader (.appendSend 1)]

/-- The second node takes over the entries of the first leader. -/
def replicatedCommand : List (Move 3) :=
  firstElection ++ oneCommand firstMember ++
  [moveOf secondMember (.handleAppend 0 (twoEntries firstMember 1)),
   moveOf secondMember (.handleAppendFinish 0 true)]

/-- The logs match after a command has been replicated. -/
theorem replicated_command_matches :
    ∃ cluster,
      runWhile logsKept Cluster.step threeNodes replicatedCommand =
          some cluster ∧
        ((cluster.procs 0).server.Remembers 2 ∧
          (cluster.procs 1).server.Remembers 2) ∧ cluster.LogsMatch := by
  obtain ⟨cluster, run, passed⟩ :
      ∃ cluster,
        runWhile logsKept Cluster.step threeNodes replicatedCommand =
            some cluster ∧
          decide ((cluster.procs 0).server.Remembers 2 ∧
            (cluster.procs 1).server.Remembers 2) = true :=
    runWhile_exists (by decide +kernel)
  exact ⟨cluster, run, of_decide_eq_true passed, logs_match run⟩

/-- Every run without a restart has matching logs. -/
def LogsAlwaysMatch (start : Cluster 3) : Prop :=
  ∀ moves cluster,
    runWhile (fun _ move => !move.act.isRestart) Cluster.step start moves =
      some cluster →
    cluster.LogsMatch

/--
The first leader has an entry of term 1 at index 1 when it gets two entries of
term 2 for the indices 1 and 2; it skips the first one.
-/
def skippedConflict : List (Move 3) :=
  twoElections ++ oneCommand secondMember ++
  [moveOf firstMember (.handleAppend 1 (twoEntries secondMember 2)),
   moveOf firstMember (.handleAppendFinish 1 true)]

/-- A skipped conflict leaves logs that do not match. -/
theorem skipped_conflict_breaks_matching :
    ¬ LogsAlwaysMatch threeNodes := by
  intro always
  obtain ⟨cluster, run, passed⟩ :
      ∃ cluster,
        runWhile (fun _ move => !move.act.isRestart) Cluster.step threeNodes
            skippedConflict = some cluster ∧
          decide (((cluster.procs 0).server.Remembers 2 ∧
            (cluster.procs 1).server.Remembers 2 ∧
            ((cluster.procs 0).server.logAt 2).term =
              ((cluster.procs 1).server.logAt 2).term) ∧
            (cluster.procs 0).server.Remembers 1 ∧
            (cluster.procs 1).server.Remembers 1 ∧
            ((cluster.procs 0).server.logAt 1).term = 1 ∧
            ((cluster.procs 1).server.logAt 1).term = 2) = true :=
    runWhile_exists (by decide +kernel)
  obtain ⟨⟨firstHas, secondHas, sameTerm⟩, firstHad, secondHad, one, two⟩ :=
    of_decide_eq_true passed
  have same := always skippedConflict cluster run 0 1 2 1 firstHas secondHas
    sameTerm Nat.one_lt_two firstHad secondHad
  rw [one, two] at same
  cases same

end NvmeofRaft
