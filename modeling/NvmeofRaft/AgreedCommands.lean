import NvmeofRaft.AppliedCommands
import NvmeofRaft.PromotedCommands

namespace NvmeofRaft

/-!
# State machine agreement

In a run of one leader the leader passes the placed commands on in log order and
the other members pass nothing on.  A promoted follower passes on a front of the
same commands, so the state machines of any two members agree as far as both
have come.
-/

/-- Exactly the non-empty commands in front of `last_applied` are passed on. -/
structure EntryView.FrontApplied
    (view : EntryView)
    (first : Nat)
    (commands : List (List UInt8)) : Prop where
  forward : first ≤ view.applied
  counted : view.applied ≤ first + commands.length
  passed :
    view.commands =
      nonEmptyCommands (commands.take (view.applied - first))

section

variable {first : Nat} {commands : List (List UInt8)}

theorem EntryView.FrontApplied.of_same
    {view after : EntryView}
    (front : view.FrontApplied first commands)
    (applied : after.applied = view.applied)
    (same : after.commands = view.commands) :
    after.FrontApplied first commands := by
  obtain ⟨forward, counted, passed⟩ := front
  rw [← applied] at forward counted passed
  exact ⟨forward, counted, same.trans passed⟩

/-- New commands come behind the front. -/
theorem EntryView.FrontApplied.append
    {view : EntryView}
    (front : view.FrontApplied first commands)
    (added : List (List UInt8)) :
    view.FrontApplied first (commands ++ added) := by
  have counted := front.counted
  refine ⟨front.forward, ?_, ?_⟩
  · rw [List.length_append]
    omega
  · rw [List.take_append_of_le_length (by omega)]
    exact front.passed

/-- What has been applied is a front of the commands. -/
theorem EntryView.FrontApplied.prefix
    {view : EntryView}
    (front : view.FrontApplied first commands) :
    view.commands <+: nonEmptyCommands commands := by
  rw [front.passed]
  exact (List.take_prefix _ _).filter _

/-- An entry that has not been applied still has its command. -/
theorem EntryView.Recalls.logAt_unapplied
    {server : Server}
    (recalls : server.entryView.Recalls first commands)
    (small : server.raft.log.length < 2 ^ 64)
    {offset : Nat}
    {command : List UInt8}
    (found : commands[offset]? = some command)
    (inMemory : server.oldestLogIndex ≤ first + offset)
    (unapplied : server.raft.lastApplied ≤ first + offset) :
    (server.logAt (first + offset)).command = command := by
  have inside := (List.getElem?_eq_some_iff.mp found).1
  have tail : server.ring.tailLogIndex = first + commands.length :=
    recalls.tail
  have sentinel : 0 < server.raft.log.length := recalls.sentinel
  have held : commands.length - offset < server.raft.log.length := by
    unfold Server.oldestLogIndex sub64 at inMemory
    split at inMemory
    · omega
    · omega
  obtain ⟨entry, atEnd, -, recalled⟩ :=
    recalls.entries offset command found held
  have same : server.logAt (first + offset) = entry := by
    rw [Server.logAt, logSlice_fromEnd small (by omega) (by omega),
      List.getD_eq_getElem?_getD]
    have fromEnd :
        server.ring.tailLogIndex - (first + offset) =
          commands.length - offset := by
      omega
    rw [fromEnd]
    change server.raft.log[server.raft.log.length -
      (commands.length - offset)]? = _ at atEnd
    rw [atEnd]
    rfl
  rw [same]
  cases recalled with
  | intact same =>
      exact same
  | released applied _ _ =>
      exact absurd (show first + offset < server.raft.lastApplied from applied)
        (Nat.not_lt.mpr unapplied)

/-- `apply_pending` passes on the command behind the front. -/
theorem applyEntry_front
    {server : Server}
    (small : server.raft.log.length < 2 ^ 64)
    (recalls : server.entryView.Recalls first commands)
    (front : server.entryView.FrontApplied first commands)
    (allowed : server.canApply server.oldestLogIndex = true) :
    server.applyEntry.entryView.FrontApplied first commands := by
  simp only [Server.canApply, Bool.and_eq_true, decide_eq_true_eq] at allowed
  obtain ⟨⟨inMemory, below⟩, -⟩ := allowed
  have tail : server.ring.tailLogIndex = first + commands.length :=
    recalls.tail
  have forward : first ≤ server.raft.lastApplied := front.forward
  obtain ⟨offset, index⟩ := Nat.exists_eq_add_of_le forward
  obtain ⟨command, found⟩ : ∃ command, commands[offset]? = some command :=
    ⟨_, List.getElem?_eq_getElem (by omega)⟩
  have job :
      (server.logAt server.raft.lastApplied).command = command := by
    rw [index] at inMemory ⊢
    exact recalls.logAt_unapplied small found inMemory index.le
  refine ⟨Nat.le_succ_of_le forward, ?_, ?_⟩
  · show server.raft.lastApplied + 1 ≤ _
    omega
  · have passed :
        server.statemachine = nonEmptyCommands (commands.take offset) := by
      have old := front.passed
      change server.statemachine =
        nonEmptyCommands
          (commands.take (server.raft.lastApplied - first)) at old
      rwa [index, Nat.add_sub_cancel_left] at old
    show server.applyEntry.statemachine =
      nonEmptyCommands
        (commands.take (server.raft.lastApplied + 1 - first))
    have count :
        server.raft.lastApplied + 1 - first = offset + 1 := by
      omega
    rw [applyEntry_commands, passed, count, List.take_add_one, found]
    unfold commandsOf nonEmptyCommands Entry.job
    rw [List.filter_append, List.map_singleton, job]
    rfl

/-- Applying goes on with the next commands. -/
theorem applyPendingLoop_front :
    ∀ bound (server : Server),
      server.raft.log.length < 2 ^ 64 →
      server.entryView.Recalls first commands →
      server.entryView.FrontApplied first commands →
      (applyPendingLoop server.oldestLogIndex bound
        server).entryView.FrontApplied first commands := by
  intro bound
  induction bound with
  | zero =>
      exact fun _ _ _ front => front
  | succ bound inductionHypothesis =>
      intro server small recalls front
      unfold applyPendingLoop
      split
      · rename_i allowed
        have size :
            server.applyEntry.raft.log.length = server.raft.log.length :=
          List.length_modify _ _ _
        rw [← applyEntry_oldest server]
        exact inductionHypothesis server.applyEntry (size ▸ small)
          (applyEntry_recalls small recalls allowed)
          (applyEntry_front small recalls front allowed)
      · exact front

end

section

variable {proc : Process} {outcomes : IoOutcomes} {act : Act}
variable {result : Process × Outputs} {layout : RingLayout}
variable {placed : List (Entry × Nat)}
variable (stepped : proc.step outcomes act = some result)
variable (stays : act.isRestart = false)
variable (started : proc.Started)

include stepped stays started

/-- A step that wins nothing passes commands on by `apply_pending` only. -/
theorem Process.Started.passes_on
    (noWin : proc.node.wins act = false) :
    result.1.server.raft.lastApplied = proc.server.raft.lastApplied ∧
        result.1.server.statemachine = proc.server.statemachine ∨
      proc.server.raft.state = .leader ∧
        ∃ bound,
          result.1.server.entryView =
            (applyPendingLoop proc.server.oldestLogIndex bound
              (proc.server.withOutcomes outcomes)).entryView := by
  rcases (started.entryStep stepped stays).passes_on with
    same | ⟨leader, same⟩ | ⟨expired, load, main, pc, won, -⟩
  · exact Or.inl ⟨congrArg Prod.fst same,
      congrArg (fun part => part.2.1) same⟩
  · exact Or.inr ⟨leader, _, same⟩
  · rw [quorumLeft_eq] at won
    have wins : proc.node.wins (.main expired load) = true :=
      Bool.and_eq_true_iff.mpr ⟨decide_eq_true pc, decide_eq_true won⟩
    rw [main, wins] at noWin
    cases noWin

/-- A node that neither leads nor wins passes nothing on. -/
theorem Process.Started.unapplied
    (noWin : proc.node.wins act = false)
    (other : proc.server.raft.state ≠ .leader) :
    result.1.server.statemachine = proc.server.statemachine := by
  rcases Process.Started.passes_on stepped stays started noWin with
    ⟨-, same⟩ | ⟨leader, -⟩
  · exact same
  · exact absurd leader other

end

/-- What the node that leads in the run has passed on. -/
structure Process.AppliesPlaced
    (proc : Process)
    (placed : List (Entry × Nat)) : Prop where
  waits : placed = [] → proc.server.statemachine = []
  leads :
    proc.server.raft.state = .leader →
    proc.server.entryView.FrontApplied 1
      (placed.map fun item => item.1.command)
  agrees :
    proc.server.statemachine <+:
      nonEmptyCommands (placed.map fun item => item.1.command)

section

variable {proc : Process} {outcomes : IoOutcomes} {act : Act}
variable {result : Process × Outputs} {layout : RingLayout}
variable {placed : List (Entry × Nat)}
variable (stepped : proc.step outcomes act = some result)
variable (stays : act.isRestart = false)
variable (started : proc.Started)

include stepped stays started

/-- The winner of the election has passed nothing on. -/
theorem Process.AppliesPlaced.won
    (applies : proc.AppliesPlaced [])
    (leads : proc.LeadsIn layout [])
    (succeed : outcomes.succeed = true)
    (wins : proc.node.wins act = true) :
    result.1.AppliesPlaced (result.1.placedBehind proc []) := by
  have running := Process.running_of_step stepped (Act.not_restart stays)
  have defers : proc.server.entryView.Defers [] := by
    cases leads.leadership with
    | before _ waits => exact (waits running).1
    | during some _ => exact absurd rfl some
    | behind some _ => exact absurd rfl some
  have commit : proc.server.raft.commitIndex < proc.server.ring.tailLogIndex :=
    defers.committed
  have upTo : proc.server.ring.tailLogIndex ≤ 0 + 1 :=
    defers.upTo
  have applied : proc.server.raft.lastApplied = 1 :=
    defers.applied
  have nothing := applies.waits rfl
  obtain ⟨-, load, promoted⟩ :=
    @Process.elected_wp proc result.1 { outcomes, act }
      (fun final => ∃ load,
        final.entryView =
          ((proc.server.withOutcomes outcomes).promote load).entryView)
      started.wellformed wins
      (Option.map_eq_some_iff.mpr ⟨result, stepped, rfl⟩)
      fun _ load _ _ sentinel won =>
        wp_mono (becomeLeader_appends load succeed sentinel won)
          (fun _ _ ends => ⟨load, ends.1⟩) fun _ _ never => never
  have passed :
      result.1.server.statemachine = [] := by
    have defers' : (proc.server.withOutcomes outcomes).entryView.Defers [] :=
      defers
    have promotes := @EntryView.Defers.promote_applies _ _ load defers'
      (show proc.server.ring.tailLogIndex < _ by omega) fun _ _ _ found => by
        cases found
    refine (congrArg EntryView.commands promoted).trans (promotes.trans ?_)
    show proc.server.statemachine ++ _ = _
    rw [nothing, commandsBetween]
    simp [nonEmptyCommands]
  have front :
      result.1.server.entryView.FrontApplied 1 [] := by
    obtain ⟨last, ⟨atLeast, atMost⟩, viewed⟩ :=
      promote_view (proc.server.withOutcomes outcomes) load
    have reached : result.1.server.raft.lastApplied = last :=
      (congrArg EntryView.applied promoted).trans
        (congrArg View.applied viewed)
    change proc.server.raft.lastApplied ≤ last at atLeast
    change last ≤ max proc.server.raft.lastApplied
      (proc.server.raft.commitIndex + 1) at atMost
    refine ⟨?_, ?_, ?_⟩
    · show 1 ≤ result.1.server.raft.lastApplied
      omega
    · show result.1.server.raft.lastApplied ≤ 1 + 0
      omega
    · refine Eq.trans (b := []) passed ?_
      rw [List.take_nil]
      rfl
  have grown := front.append
    ((result.1.server.appendedSince proc.server).map
      fun item => item.1.command)
  exact ⟨fun _ => passed, fun _ => grown, grown.prefix⟩

/-- A section of the node that leads in the run. -/
theorem Process.AppliesPlaced.step
    (applies : proc.AppliesPlaced placed)
    (leads : proc.LeadsIn layout placed)
    (succeed : outcomes.succeed = true)
    (wins : proc.node.wins act = true → placed = [])
    (small : placed.length + 1 < 2 ^ 64) :
    result.1.AppliesPlaced (result.1.placedBehind proc placed) := by
  by_cases won : proc.node.wins act = true
  · have nothing := wins won
    subst nothing
    exact Process.AppliesPlaced.won stepped stays started applies leads
      succeed won
  · have noWin : proc.node.wins act = false := by
      simpa using won
    rw [Process.placedBehind]
    by_cases leader : proc.server.raft.state = .leader
    · obtain ⟨some, records⟩ :
          placed ≠ [] ∧ proc.Records layout placed := by
        cases leads.leadership with
        | before other _ => exact absurd leader other
        | during some records => exact ⟨some, records⟩
        | behind _ other => exact absurd leader other
      have short := records.short
      have front :
          result.1.server.entryView.FrontApplied 1
            (placed.map fun item => item.1.command) := by
        rcases Process.Started.passes_on stepped stays started noWin with
          ⟨applied, commands⟩ | ⟨-, bound, same⟩
        · exact (applies.leads leader).of_same applied commands
        · rw [same]
          exact applyPendingLoop_front bound
            (proc.server.withOutcomes outcomes)
            (show proc.server.raft.log.length < _ by omega)
            records.recalls.entries (applies.leads leader)
      have grown := front.append
        ((result.1.server.appendedSince proc.server).map
          fun item => item.1.command)
      rw [← List.map_append] at grown
      exact ⟨fun none => absurd none (List.append_ne_nil_of_left_ne_nil some _),
        fun _ => grown, grown.prefix⟩
    · have other := proc.step_other stepped stays started noWin leader
      have same :=
        Process.Started.unapplied stepped stays started noWin leader
      rw [appendedSince_of_other other, List.append_nil]
      exact ⟨fun none => same.trans (applies.waits none),
        fun leads => absurd leads other, same ▸ applies.agrees⟩

end

/-- What the members of a run of one leader have passed on. -/
structure Fabric.PassesPlaced
    {n : Nat}
    (leader : Fin n)
    (fabric : Fabric n) : Prop where
  leading : (fabric.cluster.procs leader).AppliesPlaced fabric.placed
  others :
    ∀ member,
      member ≠ leader →
      (fabric.cluster.procs member).server.statemachine = []

section

variable {n : Nat} {members : Membership n} {leader : Fin n}
variable {layouts : Fin n → RingLayout} {source : Nat}
variable {fabric next : Fabric n}

/-- A section of a node. -/
theorem Fabric.PassesPlaced.nodeStep
    {node : Fin n}
    {outcomes : IoOutcomes}
    {act : Act}
    {outputs : Outputs}
    (passes : fabric.PassesPlaced leader)
    (sound : fabric.Sound members leader layouts source)
    (moves : fabric.NodeMoves next node outcomes act outputs)
    (permits : fabric.Permits leader node outcomes act)
    (small : next.placed.length + 1 < 2 ^ 64) :
    next.PassesPlaced leader := by
  have stepped := moves.moves.stepped
  have placed := moves.placed
  refine ⟨?_, fun member follows => ?_⟩
  · by_cases here : node = leader
    · subst here
      have grows : fabric.placed.length ≤ next.placed.length := by
        rw [placed, Process.placedBehind, List.length_append]
        exact Nat.le_add_right _ _
      rw [placed]
      exact Process.AppliesPlaced.step stepped permits.stays
        (sound.started node) passes.leading
        ⟨sound.leadership, sound.image, sound.laidOut node⟩ permits.succeed
        (fun wins => (permits.wins wins).2) (by omega)
    · rw [sound.placed_kept moves permits here,
        moves.moves.others leader fun same => here same.symm]
      exact passes.leading
  · by_cases here : member = node
    · subst here
      exact (Process.Started.unapplied stepped permits.stays
        (sound.started member) (permits.loses follows)
        (sound.followers member follows).role).trans
          (passes.others member follows)
    · rw [moves.moves.others member here]
      exact passes.others member follows

/-- A step of the run. -/
theorem Fabric.PassesPlaced.step
    {move : Fabric.Move n}
    (passes : fabric.PassesPlaced leader)
    (sound : fabric.Sound members leader layouts source)
    (rings : Rings leader layouts source)
    (scope : fabric.oneLeader leader move = true)
    (keeps : fabric.keepsCommands move = true)
    (stepped : fabric.step move = some next)
    (small : next.placed.length + 1 < 2 ^ 64) :
    next.PassesPlaced leader := by
  cases move with
  | node move =>
      obtain ⟨awaits, outputs, moves⟩ :=
        Fabric.stepNode_moves sound.sane stepped
      exact passes.nodeStep sound moves (Fabric.permits awaits scope keeps)
        small
  | copy owner thread chunk =>
      obtain ⟨length, lies⟩ := rings.source
      obtain ⟨dst, req, cut, other, -, -, brings⟩ :=
        sound.brings rings lies keeps stepped
      refine ⟨?_, fun member follows => ?_⟩
      · rw [brings.placed, brings.others leader fun same => other same.symm]
        exact passes.leading
      · by_cases here : member = dst
        · obtain ⟨volume, same⟩ := brings.self
          rw [here, same]
          exact passes.others dst other
        · rw [brings.others member here]
          exact passes.others member follows

/-- What a run of one leader has passed on at its end. -/
theorem Fabric.PassesPlaced.run
    {start final : Fabric n}
    {moves : List (Fabric.Move n)}
    (sound : start.Sound members leader layouts source)
    (passes : start.PassesPlaced leader)
    (rings : Rings leader layouts source)
    (run :
      runWhile (Fabric.promotable leader) Fabric.step start moves =
        some final)
    (small : final.placed.length + 1 < 2 ^ 64) :
    final.Sound members leader layouts source ∧
      final.PassesPlaced leader := by
  refine runWhile_invariant
    (fun fabric : Fabric n =>
      fabric.placed.length + 1 < 2 ^ 64 →
      fabric.Sound members leader layouts source ∧
        fabric.PassesPlaced leader)
    (fun fabric move next holds allowed stepped small => ?_)
    (fun _ => ⟨sound, passes⟩) run small
  obtain ⟨scope, keeps⟩ := Bool.and_eq_true_iff.mp allowed
  have grows := (Fabric.step_placed stepped).length_le
  obtain ⟨sound, passes⟩ := holds (by omega)
  exact ⟨sound.step rings scope keeps stepped small,
    passes.step sound rings scope keeps stepped small⟩

end

end NvmeofRaft
