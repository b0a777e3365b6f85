import NvmeofRaft.AnsweredCalls
import NvmeofRaft.LeaderCompleteness

namespace NvmeofRaft

/-!
# Acknowledged commands

The cluster with the client calls on its nodes.  A section of a call is a
section of its node, so a run of the nodes with their calls is a run of the
cluster, and what a call has been told about its commands can be held against
the logs of later leaders.
-/

/-- The nodes, the messages and the client calls on the nodes. -/
structure CallingCluster (n : Nat) where
  cluster : Cluster n
  calls : Fin n → List Call := fun _ => []

/-- A step of the cluster: which node goes on, and how. -/
structure ClientMove (n : Nat) where
  member : Fin n
  move : CallMove

/-- The section that a move runs, where it runs one. -/
def CallingNode.input?
    (node : CallingNode) :
    CallMove → Option Input
  | .node input => some input
  | .lockA index outcomes =>
      (node.calls[index]?).map fun call =>
        { outcomes, act := .apply index call.commands }
  | _ => none

/-- A member with its calls. -/
def CallingCluster.node
    {n : Nat}
    (state : CallingCluster n)
    (member : Fin n) :
    CallingNode where
  proc := state.cluster.procs member
  calls := state.calls member

/-- The move of the cluster that runs the section. -/
def Input.of
    {n : Nat}
    (input : Input)
    (member : Fin n) :
    Move n where
  node := member
  outcomes := input.outcomes
  act := input.act

/-- One step of the cluster with its calls. -/
def CallingCluster.step
    {n : Nat}
    (state : CallingCluster n)
    (move : ClientMove n) :
    Option (CallingCluster n) :=
  match (state.node move.member).step move.move with
  | some next =>
      let calls := Function.update state.calls move.member next.calls
      match (state.node move.member).input? move.move with
      | some input =>
          (state.cluster.step (input.of move.member)).map fun cluster =>
            { cluster, calls }
      | none => some { state with calls }
  | none => none

/-- The cluster after every node has started, without calls. -/
def Membership.calling
    {n : Nat}
    (members : Membership n)
    (settings : Fin n → Settings) :
    CallingCluster n where
  cluster := members.start settings

/-- The commit condition on the sections of the nodes. -/
def callsKept
    {n : Nat}
    (state : CallingCluster n)
    (move : ClientMove n) :
    Bool :=
  match (state.node move.member).input? move.move with
  | some input => commitsKept state.cluster (input.of move.member)
  | none => true

theorem CallingNode.stepLockA_proc
    {node next : CallingNode}
    {index : Nat}
    {call : Call}
    {outcomes : IoOutcomes}
    (stepped : node.stepLockA index call outcomes = some next) :
    node.proc.advance { outcomes, act := .apply index call.commands } =
      some next.proc := by
  unfold stepLockA at stepped
  split at stepped
  · obtain ⟨proc, advanced, rfl⟩ := Option.map_eq_some_iff.mp stepped
    exact advanced
  · cases stepped

/-- What a call does to its process. -/
theorem CallingNode.goOn_proc
    {node next : CallingNode}
    {move : CallMove}
    (stepped : node.goOn move = some next) :
    next.proc = node.proc ∧ (∀ index outcomes, move ≠ .lockA index outcomes) ∨
      ∃ index outcomes call,
        move = .lockA index outcomes ∧ node.calls[index]? = some call ∧
          node.proc.advance { outcomes, act := .apply index call.commands } =
            some next.proc := by
  unfold goOn at stepped
  split at stepped
  · rename_i index running target
    split at stepped
    · rename_i call held
      unfold stepCall at stepped
      split at stepped
      · obtain rfl := Option.some.inj target
        exact Or.inr ⟨_, _, call, rfl, held, stepLockA_proc stepped⟩
      · obtain rfl := Option.some.inj target
        exact Or.inr ⟨_, _, call, rfl, held, stepLockA_proc stepped⟩
      · obtain rfl := Option.some.inj stepped
        exact Or.inl ⟨rfl, fun _ _ => CallMove.noConfusion⟩
      · obtain rfl := Option.some.inj stepped
        exact Or.inl ⟨rfl, fun _ _ => CallMove.noConfusion⟩
      · obtain rfl := Option.some.inj stepped
        exact Or.inl ⟨rfl, fun _ _ => CallMove.noConfusion⟩
      · obtain rfl := Option.some.inj stepped
        exact Or.inl ⟨rfl, fun _ _ => CallMove.noConfusion⟩
      · cases stepped
    · cases stepped
  · cases stepped

/-- A move either runs its section or leaves the process alone. -/
theorem CallingNode.step_proc
    {node next : CallingNode}
    {move : CallMove}
    (stepped : node.step move = some next) :
    match node.input? move with
    | some input => node.proc.advance input = some next.proc
    | none => next.proc = node.proc := by
  have goesOn :
      node.goOn move = some next →
      match node.input? move with
      | some input => node.proc.advance input = some next.proc
      | none => next.proc = node.proc := by
    intro stepped
    rcases goOn_proc stepped with
      ⟨same, noLock⟩ | ⟨index, outcomes, call, rfl, held, advanced⟩
    · cases move with
      | enter _ => exact same
      | lockA index outcomes => exact absurd rfl (noLock index outcomes)
      | node input =>
          unfold goOn at stepped
          split at stepped
          · rename_i target
            cases target
          · cases stepped
      | _ => exact same
    · simp only [input?, held, Option.map_some]
      exact advanced
  cases move with
  | enter commands =>
      rw [step] at stepped
      split at stepped
      · cases stepped
      · obtain rfl := Option.some.inj stepped
        rfl
  | node input =>
      rw [step] at stepped
      split at stepped
      · cases stepped
      · obtain ⟨proc, advanced, rfl⟩ := Option.map_eq_some_iff.mp stepped
        exact advanced
  | _ => exact goesOn stepped

section

variable {n : Nat} {members : Membership n} {settings : Fin n → Settings}
variable {state next : CallingCluster n} {move : ClientMove n}

/-- A step of the cluster is a step of one process. -/
theorem Cluster.step_advances
    {cluster after : Cluster n}
    {move : Move n}
    (stepped : cluster.step move = some after) :
    (cluster.procs move.node).advance
          { outcomes := move.outcomes, act := move.act } =
        some (after.procs move.node) ∧
      ∀ other, other ≠ move.node →
        after.procs other = cluster.procs other := by
  unfold Cluster.step at stepped
  split at stepped
  · split at stepped
    · rename_i proc outputs ran
      obtain rfl := Option.some.inj stepped
      refine ⟨?_, fun other apart => Function.update_of_ne apart _ _⟩
      have own : Function.update cluster.procs move.node proc move.node = proc :=
        Function.update_self _ _ _
      rw [Process.advance, ran]
      exact congrArg some own.symm
    · cases stepped
  · cases stepped

/-- A step of the cluster is a step of one of its nodes. -/
theorem CallingCluster.step_node
    (stepped : state.step move = some next) :
    (state.node move.member).step move.move =
        some (next.node move.member) ∧
      (∀ other, other ≠ move.member → next.node other = state.node other) ∧
        match (state.node move.member).input? move.move with
        | some input =>
            state.cluster.step (input.of move.member) = some next.cluster
        | none => next.cluster = state.cluster := by
  unfold step at stepped
  cases went : (state.node move.member).step move.move with
  | none =>
      rw [went] at stepped
      cases stepped
  | some node =>
      have ran := CallingNode.step_proc went
      rw [went] at stepped
      dsimp only at stepped
      have calls :
          ∀ cluster : Cluster n,
            cluster.procs move.member = node.proc →
            (∀ other, other ≠ move.member →
              cluster.procs other = state.cluster.procs other) →
            some node = some (CallingCluster.node
                { cluster
                  calls :=
                    Function.update state.calls move.member node.calls }
                move.member) ∧
              ∀ other, other ≠ move.member →
                CallingCluster.node
                    { cluster
                      calls :=
                        Function.update state.calls move.member node.calls }
                    other =
                  state.node other := by
        intro cluster own others
        refine ⟨?_, fun other apart => ?_⟩
        · simp [CallingCluster.node, own]
        · simp [CallingCluster.node, others other apart, apart]
      cases input : (state.node move.member).input? move.move with
      | none =>
          rw [input] at stepped ran
          obtain rfl := Option.some.inj stepped
          obtain ⟨own, others⟩ := calls state.cluster ran.symm fun _ _ => rfl
          exact ⟨own, others, rfl⟩
      | some input =>
          rw [input] at stepped ran
          obtain ⟨cluster, ends, rfl⟩ := Option.map_eq_some_iff.mp stepped
          obtain ⟨advanced, apart⟩ := Cluster.step_advances ends
          have same : cluster.procs move.member = node.proc :=
            Option.some.inj (advanced.symm.trans ran)
          obtain ⟨own, others⟩ := calls cluster same apart
          exact ⟨own, others, ends⟩

/-- The calls on every node are in order. -/
def CallingCluster.Sound (state : CallingCluster n) : Prop :=
  ∀ member, (state.node member).Sound

/-- Every step inside the condition keeps the calls sound. -/
theorem CallingCluster.Sound.step
    (sound : state.Sound)
    (allowed : callsKept state move = true)
    (stepped : state.step move = some next) :
    next.Sound ∧
      (state.node move.member).Traces (next.node move.member) := by
  obtain ⟨own, others, -⟩ := CallingCluster.step_node stepped
  have kept : (state.node move.member).tailKept move.move = true := by
    unfold callsKept at allowed
    cases act : move.move with
    | node input =>
        rw [act] at allowed
        simp only [CallingNode.input?, commitsKept, Bool.and_eq_true] at allowed
        exact allowed.1.1.1.1.2
    | _ => rfl
  obtain ⟨after, traces⟩ := (sound move.member).step kept own
  refine ⟨fun member => ?_, traces⟩
  by_cases here : member = move.member
  · exact here ▸ after
  · rw [others member here]
    exact sound member

/-- A run of the nodes with their calls is a run of the cluster. -/
theorem CallingCluster.cluster_run
    {moves : List (ClientMove n)} :
    ∀ {state : CallingCluster n},
      runWhile callsKept CallingCluster.step state moves = some next →
      ∃ steps,
        runWhile commitsKept Cluster.step state.cluster steps =
          some next.cluster := by
  induction moves with
  | nil =>
      intro state run
      rw [runWhile, Option.some.injEq] at run
      exact ⟨[], by rw [run]; rfl⟩
  | cons move moves inductionHypothesis =>
      intro state run
      obtain ⟨middle, allowed, stepped, rest⟩ := runWhile_cons run
      obtain ⟨steps, along⟩ := inductionHypothesis rest
      obtain ⟨-, -, ran⟩ := CallingCluster.step_node stepped
      unfold callsKept at allowed
      split at ran
      · rename_i input held
        rw [held] at allowed
        have kept :
            commitsKept state.cluster (input.of move.member) = true :=
          allowed
        refine ⟨input.of move.member :: steps, ?_⟩
        rw [runWhile_of_step kept ran]
        exact along
      · exact ⟨steps, ran ▸ along⟩

/-- The section of a move restarts the process if the move does. -/
theorem CallingNode.input_restarts
    {node : CallingNode}
    {move : CallMove}
    {input : Input}
    (held : node.input? move = some input) :
    input.act.isRestart = move.restarts := by
  cases move with
  | node other =>
      obtain rfl := Option.some.inj held
      rfl
  | lockA index outcomes =>
      obtain ⟨call, -, rfl⟩ := Option.map_eq_some_iff.mp held
      rfl
  | _ => cases held

/-- The term does not fall while the process of a call runs. -/
theorem CallingNode.Sound.term_le
    {node next : CallingNode}
    {move : CallMove}
    (sound : node.Sound)
    (runs : move.restarts = false)
    (stepped : node.step move = some next) :
    node.proc.server.raft.currentTerm ≤
      next.proc.server.raft.currentTerm := by
  have ran := CallingNode.step_proc stepped
  split at ran
  · rename_i input held
    have noRestart := (CallingNode.input_restarts held).trans runs
    obtain ⟨result, ends, same⟩ := Option.map_eq_some_iff.mp ran
    have does := Process.step_does sound.started.wellformed ends
    rw [← same]
    exact Node.Step.term_le does (Act.not_restart noRestart)
  · rw [ran]

/-- A cluster that has just booted has no calls. -/
theorem calling_sound
    (members : Membership n)
    (settings : Fin n → Settings) :
    (members.calling settings).Sound :=
  fun member => boot_sound members settings member

/-- A member leads and has committed the last entry of a call on it. -/
structure CallingCluster.Commits
    (state : CallingCluster n)
    (member : Fin n)
    (sink : Nat)
    (commands : List (List UInt8))
    (last : Nat) : Prop where
  leads : (state.cluster.procs member).server.raft.state = .leader
  commit : last ≤ (state.cluster.procs member).server.raft.commitIndex
  own :
    ∃ entry,
      (state.cluster.procs member).server.entryView.entryAt? last =
          some entry ∧
        entry.resultSink = some sink ∧
          commands.getLast? = some entry.command

/-- Some front of the run ends where the member commits the call. -/
def CallingCluster.CommitsIn
    (start : CallingCluster n)
    (moves : List (ClientMove n))
    (member : Fin n)
    (sink : Nat)
    (commands : List (List UInt8))
    (last : Nat)
    (committed : CallingCluster n) : Prop :=
  ∃ earlier later,
    moves = earlier ++ later ∧
      runWhile callsKept CallingCluster.step start earlier = some committed ∧
        committed.Commits member sink commands last

theorem CallingCluster.signaled_commits
    {start : CallingCluster n}
    (sound : start.Sound)
    (noCalls : ∀ member, start.calls member = [])
    (moves : List (ClientMove n)) :
    ∀ {final : CallingCluster n},
      runWhile callsKept CallingCluster.step start moves = some final →
      final.Sound ∧
        ∀ member (sink : Nat) (call : Call),
          (final.calls member)[sink]? = some call →
          call.signaled = true →
          ∃ first committed,
            call.first = some first ∧
              start.CommitsIn moves member sink call.commands
                  (call.last first) committed ∧
                (committed.cluster.procs member).server.raft.currentTerm ≤
                  (final.cluster.procs member).server.raft.currentTerm := by
  induction moves using List.reverseRecOn with
  | nil =>
      intro final run
      rw [runWhile, Option.some.injEq] at run
      rw [← run]
      refine ⟨sound, fun member sink call found => ?_⟩
      rw [noCalls] at found
      cases found
  | append_singleton moves move inductionHypothesis =>
      intro final run
      obtain ⟨middle, reached, allowed, stepped⟩ := runWhile_concat run
      obtain ⟨before, traced⟩ := inductionHypothesis reached
      obtain ⟨after, traces⟩ := before.step allowed stepped
      obtain ⟨own, others, -⟩ := CallingCluster.step_node stepped
      have still :
          ∀ member (sink : Nat) (old call : Call),
            (middle.calls member)[sink]? = some old →
            old.signaled = true →
            old.batch = call.batch →
            (middle.cluster.procs member).server.raft.currentTerm ≤
              (final.cluster.procs member).server.raft.currentTerm →
            ∃ first committed,
              call.first = some first ∧
                start.CommitsIn (moves ++ [move]) member sink call.commands
                    (call.last first) committed ∧
                  (committed.cluster.procs member).server.raft.currentTerm ≤
                    (final.cluster.procs member).server.raft.currentTerm := by
        intro member sink old call held set same rises
        obtain ⟨first, committed, begins,
          ⟨earlier, later, rfl, reached, commits⟩, below⟩ :=
          traced member sink old held set
        have commands : old.commands = call.commands :=
          congrArg Batch.commands same
        rw [commands, Call.last_of_batch same] at commits
        exact ⟨first, committed, (Call.first_of_batch same).symm.trans begins,
          ⟨earlier, later ++ [move], List.append_assoc _ _ _, reached,
            commits⟩, below.trans rises⟩
      refine ⟨after, fun member sink call found set => ?_⟩
      by_cases here : member = move.member
      · subst here
        rcases traces sink call found set with
          ⟨old, held, already, same⟩ | ⟨first, begins, commits⟩
        · have runs : move.move.restarts = false := by
            refine Bool.eq_false_iff.mpr fun restarts => ?_
            have none := restart_calls restarts own
            rw [CallingCluster.node] at none
            dsimp only at none
            rw [none] at found
            cases found
          exact still _ sink old call held already same
            ((before move.member).term_le runs own)
        · exact ⟨first, final, begins, ⟨moves ++ [move], [],
            (List.append_nil _).symm, run, commits.commits.stays,
            commits.commits.reached.trans_eq commits.commits.commit.symm,
            commits.own⟩, le_refl _⟩
      · have same : final.calls member = middle.calls member :=
          congrArg CallingNode.calls (others member here)
        have rises :
            (middle.cluster.procs member).server.raft.currentTerm ≤
              (final.cluster.procs member).server.raft.currentTerm :=
          ge_of_eq (congrArg (fun node =>
            node.proc.server.raft.currentTerm) (others member here))
        rw [same] at found
        exact still member sink call call found set rfl rises

/--
Acknowledged commands survive.  In a run of the cluster that meets the commit
condition, a client call that has returned without an error has had its entries
committed by the leader it was made on; whenever another node leads in a higher
term, now or later, it has an entry at each of their indices, and an entry of
the same term as far as both are in memory.
-/
theorem acknowledged_commands_survive
    {moves later : List (ClientMove n)}
    {answered final : CallingCluster n}
    (run :
      runWhile callsKept CallingCluster.step (members.calling settings) moves =
        some answered)
    (goesOn :
      runWhile callsKept CallingCluster.step answered later = some final)
    {member : Fin n}
    {sink : Nat}
    {call : Call}
    (found : (answered.calls member)[sink]? = some call)
    (returned : call.pc = .returned none)
    (nonempty : call.commands ≠ []) :
    ∃ first committed,
      call.first = some first ∧
        (members.calling settings).CommitsIn moves member sink call.commands
            (call.last first) committed ∧
          (committed.cluster.procs member).server.raft.currentTerm ≤
            (answered.cluster.procs member).server.raft.currentTerm ∧
          ∀ successor logIdx,
            (final.cluster.procs successor).server.raft.state = .leader →
            (committed.cluster.procs member).server.raft.currentTerm <
              (final.cluster.procs successor).server.raft.currentTerm →
            first ≤ logIdx →
            logIdx ≤ call.last first →
            logIdx < (final.cluster.procs successor).server.ring.tailLogIndex ∧
              ((committed.cluster.procs member).server.Remembers logIdx →
                (final.cluster.procs successor).server.Remembers logIdx →
                ((final.cluster.procs successor).server.logAt logIdx).term =
                  ((committed.cluster.procs member).server.logAt
                    logIdx).term) := by
  obtain ⟨sound, traced⟩ :=
    CallingCluster.signaled_commits (calling_sound members settings)
      (fun _ => rfl) moves run
  have consistent := ((sound member).kept sink call found).consistent
  rw [Call.Consistent, returned] at consistent
  obtain ⟨first, committed, begins,
    ⟨earlier, rest, rfl, reached, commits⟩, below⟩ :=
    traced member sink call found (consistent.resolve_left nonempty)
  refine ⟨first, committed, begins,
    ⟨earlier, rest, rfl, reached, commits⟩, below, ?_⟩
  intro successor logIdx leads higher _ within
  rw [runWhile_append, reached, Option.bind_some] at run
  obtain ⟨front, toCommit⟩ := CallingCluster.cluster_run reached
  obtain ⟨between, toAnswer⟩ := CallingCluster.cluster_run run
  obtain ⟨back, toFinal⟩ := CallingCluster.cluster_run goesOn
  have onward :
      runWhile commitsKept Cluster.step committed.cluster (between ++ back) =
        some final.cluster := by
    rw [runWhile_append, toAnswer]
    exact toFinal
  exact Cluster.leadersKeep_of_runs toCommit onward member successor logIdx
    commits.leads (within.trans commits.commit) leads higher

end

/-- The section of a node that is not part of a call. -/
def Move.aside (move : Move 3) : ClientMove 3 where
  member := move.node
  move := .node { outcomes := move.outcomes, act := move.act }

/-- A call on the first node goes on. -/
def onFirst (move : CallMove) : ClientMove 3 where
  member := firstMember
  move

/--
The first leader replicates and commits the command of a call, applies it and
answers the call.
-/
def answeredCommand : List (ClientMove 3) :=
  firstElection.map Move.aside ++
  [onFirst (.enter [[1]]), onFirst (.lockA 0 {})] ++
  ([moveOf firstMember (.applySpawn 1), moveOf firstMember (.appendSend 1),
    moveOf secondMember (.handleAppend 0 (twoEntries firstMember 1)),
    moveOf secondMember (.handleAppendFinish 0 true)] ++
   commitRound firstMember 1 ++ [moveOf firstMember .applyPending]).map
    Move.aside ++
  [onFirst (.lookAtSignal 0), onFirst (.collect 0)]

def answeredCall : Call where
  commands := [[1]]
  pc := .returned none
  first := some 2
  signaled := true

/-- The successor of the leader that has answered has the command. -/
theorem successor_keeps_acknowledged :
    ∃ committed final : CallingCluster 3,
      (final.cluster.procs 1).server.raft.state = .leader ∧
        2 < (final.cluster.procs 1).server.ring.tailLogIndex ∧
          ((committed.cluster.procs 0).server.Remembers 2 →
            (final.cluster.procs 1).server.Remembers 2 →
            ((final.cluster.procs 1).server.logAt 2).term =
              ((committed.cluster.procs 0).server.logAt 2).term) := by
  obtain ⟨answered, run, passed⟩ :
      ∃ answered,
        runWhile callsKept CallingCluster.step
            (threeMembers.calling fun _ => smallRing) answeredCommand =
            some answered ∧
          ((runWhile callsKept CallingCluster.step answered
              (succession.map Move.aside)).any
            fun final =>
              decide ((answered.calls 0)[0]? = some answeredCall ∧
                (answered.cluster.procs 0).server.raft.currentTerm = 1 ∧
                (final.cluster.procs 1).server.raft.state = .leader ∧
                (final.cluster.procs 1).server.raft.currentTerm = 2)) = true :=
    runWhile_exists (by decide +kernel)
  obtain ⟨final, goesOn, reached⟩ := runWhile_exists passed
  obtain ⟨found, early, leads, term⟩ := of_decide_eq_true reached
  obtain ⟨first, committed, begins, -, below, keeps⟩ :=
    acknowledged_commands_survive run goesOn found rfl (List.cons_ne_nil _ _)
  obtain rfl : first = 2 := (Option.some.inj begins).symm
  have higher :
      (committed.cluster.procs 0).server.raft.currentTerm <
        (final.cluster.procs 1).server.raft.currentTerm := by
    rw [term]
    exact Nat.lt_succ_of_le (below.trans_eq early)
  exact ⟨committed, final, leads,
    keeps 1 2 leads higher (le_refl _) (le_refl _)⟩

end NvmeofRaft
