import NvmeofRaft.OneLeaderStep

namespace NvmeofRaft

/-!
# What a promoted follower applies

In a run of one leader whose steps keep the commands, a follower that
`become_leader` promotes passes on what the leader has appended at the indices
up to its commit index.
-/

/-- The ring layouts of the members after their start. -/
def Membership.layouts
    {n : Nat}
    (members : Membership n)
    (settings : Fin n → Settings)
    (member : Fin n) :
    RingLayout :=
  (members.boot settings member).server.layout

section

variable {n : Nat} (members : Membership n) (settings : Fin n → Settings)
variable (member : Fin n)

end

section

variable {n : Nat} {members : Membership n} {leader : Fin n}
variable {layouts : Fin n → RingLayout} {source : Nat}

/-- What has been placed stays on record. -/
theorem Fabric.step_placed
    {fabric next : Fabric n}
    {move : Fabric.Move n}
    (stepped : fabric.step move = some next) :
    fabric.placed <+: next.placed := by
  cases move with
  | node move =>
      unfold Fabric.step Fabric.stepNode at stepped
      dsimp only at stepped
      split at stepped
      · obtain ⟨cluster, -, rfl⟩ := Option.map_eq_some_iff.mp stepped
        exact List.prefix_append _ _
      · cases stepped
  | copy owner thread chunk =>
      unfold Fabric.step Fabric.stepCopy at stepped
      dsimp only at stepped
      split at stepped
      · split at stepped
        · split at stepped
          · split at stepped
            · cases stepped
              exact List.prefix_refl _
            · cases stepped
          · cases stepped
        · cases stepped
      · cases stepped

/-- The step belongs to the run of one leader and keeps the commands. -/
def Fabric.promotable
    (leader : Fin n)
    (fabric : Fabric n)
    (move : Fabric.Move n) :
    Bool :=
  fabric.oneLeader leader move && fabric.keepsCommands move

/-- What a run of one leader keeps from its start on. -/
theorem Fabric.Sound.run
    {start final : Fabric n}
    {moves : List (Fabric.Move n)}
    (sound : start.Sound members leader layouts source)
    (rings : Rings leader layouts source)
    (run :
      runWhile (Fabric.promotable leader) Fabric.step start moves =
        some final)
    (small : final.placed.length + 1 < 2 ^ 64) :
    final.Sound members leader layouts source := by
  refine runWhile_invariant
    (fun fabric : Fabric n =>
      fabric.placed.length + 1 < 2 ^ 64 →
      fabric.Sound members leader layouts source)
    (fun fabric move next holds allowed stepped small => ?_) (fun _ => sound)
    run small
  obtain ⟨scope, keeps⟩ := Bool.and_eq_true_iff.mp allowed
  have grows := (Fabric.step_placed stepped).length_le
  exact (holds (by omega)).step rings scope keeps stepped small

variable {before after : Fabric n} {move : NvmeofRaft.Move n}

/-- The commands of a follower's entries are read back. -/
theorem Fabric.Sound.loads
    (sound : before.Sound members leader layouts source)
    (rings : Rings leader layouts source)
    {member : Fin n}
    (follows : member ≠ leader)
    (running : (before.cluster.procs member).halted = false)
    {position start : Nat}
    {entry : Entry}
    (found : before.placed[position]? = some (entry, start))
    (held :
      position + 1 <
        (before.cluster.procs member).server.ring.tailLogIndex)
    (elsewhere : start ≠ 0)
    (term : entry.term < 2 ^ 64)
    (short : entry.command.length < 2 ^ 64) :
    before.loadFrom member start = some entry.command := by
  obtain ⟨inRing, holds⟩ :=
    (sound.followers member follows).shows running position _ found held
      elsewhere
  obtain ⟨physical, length, lies, aligned⟩ := rings.lies member
  have ringSlots :
      (before.cluster.procs member).server.ring.ringSlots =
        (layouts member).ringSlots :=
    congrArg RingLayout.ringSlots (sound.laidOut member)
  have larger := rings.larger member
  rw [← sound.laidOut member] at lies
  refine Fabric.loadFrom_holds lies aligned holds ?_ term short
  dsimp only at inRing
  omega

/-- The election that promotes a follower passes on what it can load. -/
theorem Fabric.Sound.promotes
    (sound : before.Sound members leader layouts source)
    (rings : Rings leader layouts source)
    (fits : before.placed.length + 1 < 2 ^ 64)
    (words :
      ∀ item ∈ before.placed,
        item.1.term < 2 ^ 64 ∧ item.1.command.length < 2 ^ 64)
    (follows : move.node ≠ leader)
    (wins : (before.cluster.procs move.node).node.wins move.act = true)
    (succeed : move.outcomes.succeed = true)
    (promoted : before.step (.node move) = some after) :
    (before.cluster.procs move.node).server.raft.lastApplied = 1 ∧
      (after.cluster.procs move.node).server.statemachine =
        (before.cluster.procs move.node).server.statemachine ++
          commandsBetween (before.placed.map loadedCommand)
            (before.cluster.procs move.node).server.raft.lastApplied
            (before.cluster.procs move.node).server.raft.commitIndex := by
  obtain ⟨-, outputs, moves⟩ := Fabric.stepNode_moves sound.sane promoted
  have stepped := moves.moves.stepped
  cases act : move.act with
  | main expired given =>
      rw [act] at stepped wins
      have running := Process.running_of_step stepped
        fun _ _ => Act.noConfusion
      have defers :
          ((before.cluster.procs move.node).server.withOutcomes
            move.outcomes).entryView.Defers before.placed :=
        (sound.followers move.node follows).defers running
      have upTo :
          (before.cluster.procs move.node).server.ring.tailLogIndex ≤
            before.placed.length + 1 :=
        defers.upTo
      have elected :
          (before.cluster.procs move.node).advance
              { outcomes := move.outcomes
                act := .main expired (before.loadFrom move.node) } =
            some (after.cluster.procs move.node) :=
        Option.map_eq_some_iff.mpr ⟨_, stepped, rfl⟩
      have viewed :=
        (@Process.elected_wp _ _ _
          (fun final =>
            final.entryView =
              (((before.cluster.procs move.node).server.withOutcomes
                move.outcomes).promote
                  (before.loadFrom move.node)).entryView)
          (sound.started move.node).wellformed wins elected
          fun _ load same _ sentinel won => by
            obtain ⟨-, rfl⟩ := Act.main.inj same
            exact wp_mono
              (becomeLeader_appends (before.loadFrom move.node) succeed
                sentinel won)
              (fun _ _ ends => ends.1) fun _ _ never => never).2
      have applied :=
        @EntryView.Defers.promote_applies _ _ (before.loadFrom move.node) defers
          (show (before.cluster.procs move.node).server.ring.tailLogIndex < _ by
            omega)
          (by
            intro position entry start found committed elsewhere
            obtain ⟨term, short⟩ := words _ (List.mem_of_getElem? found)
            have below :
                (before.cluster.procs move.node).server.raft.commitIndex <
                  (before.cluster.procs move.node).server.ring.tailLogIndex :=
              defers.committed
            change
              position <
                (before.cluster.procs move.node).server.raft.commitIndex
              at committed
            exact sound.loads rings follows running found (by omega) elsewhere
              term short)
      exact ⟨defers.applied,
        (congrArg EntryView.commands viewed).trans applied⟩
  | _ =>
      rw [act] at wins
      cases wins

end

end NvmeofRaft
