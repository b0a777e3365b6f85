import NvmeofRaft.ApplyOrder
import NvmeofRaft.SlotChain

namespace NvmeofRaft

/-!
# Applied commands

`apply_pending` and `become_leader` pass commands on to the state machine, and
no section takes one back: over a run without a restart, what has been applied
is only added to.
-/

/-- The apply loop of a new leader only adds commands. -/
theorem applyLoaded_adds
    (oldest : Nat) :
    ∀ bound (server : Server),
      server.statemachine <+: (applyLoaded oldest bound server).statemachine := by
  intro bound
  induction bound with
  | zero =>
      exact fun server => List.prefix_rfl
  | succ bound inductionHypothesis =>
      intro server
      unfold applyLoaded
      split
      · refine List.IsPrefix.trans ?_ (inductionHypothesis _)
        dsimp only
        split
        · exact List.prefix_rfl
        · exact List.prefix_append _ _
      · exact List.prefix_rfl

theorem applyEntry_adds
    (server : Server) :
    server.statemachine <+: server.applyEntry.statemachine := by
  unfold Server.applyEntry
  dsimp only
  split
  · exact List.prefix_rfl
  · exact List.prefix_append _ _

theorem applyEntry_oldest
    (server : Server) :
    server.applyEntry.oldestLogIndex = server.oldestLogIndex := by
  show sub64 _ ((server.raft.log.modify _ _).length - 1) = _
  rw [List.length_modify]
  rfl

/-- An applied entry leaves the log covered. -/
theorem applyEntry_covered
    {server : Server}
    (covered : server.entryView.Covered)
    (inMemory : server.oldestLogIndex ≤ server.raft.lastApplied) :
    server.applyEntry.entryView.Covered := by
  have log := applyEntry_log inMemory
  obtain ⟨sentinel, bounded⟩ := covered.change
    server.raft.lastApplied Entry.release
  rw [← log] at sentinel bounded
  exact ⟨sentinel, bounded⟩

/-- Applying only adds commands. -/
theorem applyPendingLoop_adds
    (oldest : Nat) :
    ∀ bound (server : Server),
      server.statemachine <+:
        (applyPendingLoop oldest bound server).statemachine := by
  intro bound
  induction bound with
  | zero =>
      exact fun server => List.prefix_rfl
  | succ bound inductionHypothesis =>
      intro server
      unfold applyPendingLoop
      split
      · exact (applyEntry_adds server).trans (inductionHypothesis _)
      · exact List.prefix_rfl

namespace EntryView

/-- What has been applied, with the commands and the results passed on. -/
def appliedPart (view : EntryView) :
    Nat × List (List UInt8) × List (Nat × List UInt8) :=
  (view.applied, view.commands, view.results)

variable (view : EntryView)

@[simp] theorem bump_appliedPart
    (term : Nat) :
    (view.bump term).appliedPart = view.appliedPart := by
  unfold bump
  split <;> rfl

@[simp] theorem meet_appliedPart
    (term : Nat) :
    (view.meet term).appliedPart = view.appliedPart := by
  unfold meet stepDown
  split <;> exact view.bump_appliedPart term

@[simp] theorem complete_appliedPart
    (slot : Nat)
    (pending : PendingAppend) :
    (view.complete slot pending).appliedPart = view.appliedPart := by
  unfold complete buildLog
  split <;> rfl

/-- The append handler applies nothing. -/
theorem Handled.appliedPart
    {view after : EntryView}
    {req : AppendEntriesRequest}
    (handled : view.Handled req after) :
    after.appliedPart = view.appliedPart := by
  cases handled with
  | demoted _ => exact view.bump_appliedPart _
  | met => exact view.meet_appliedPart _
  | followed _ => exact view.meet_appliedPart _
  | completed _ _ _ _ _ _ =>
      exact (complete_appliedPart _ _ _).trans (view.meet_appliedPart _)

end EntryView

theorem promote_adds
    (server : Server)
    (load : Nat → Option (List UInt8)) :
    server.statemachine <+: (server.promote load).statemachine :=
  applyLoaded_adds _ _ (server.takeLead.loadDeferredEntries load)

/-- Commitment applies nothing. -/
theorem commitTo_appliedPart
    (server : Server)
    (majorityIdx : Nat) :
    (server.commitTo majorityIdx).entryView.appliedPart =
      server.entryView.appliedPart := by
  obtain ⟨log, same⟩ := signalCommittedFrom_only
    (majorityIdx - server.raft.commitIndex) (server.raft.commitIndex + 1)
    (server.mapRaft fun raft => { raft with commitIndex := majorityIdx })
  rw [Server.commitTo, same]
  rfl

/-- `apply_pending` of a leader and `become_leader` pass commands on. -/
theorem Process.EntryStep.passes_on
    {proc : Process}
    {server : Server}
    {act : Act}
    {after : EntryView}
    (step : proc.EntryStep server act after) :
    after.appliedPart = server.entryView.appliedPart ∨
      (server.raft.state = .leader ∧
        after =
          (applyPendingLoop server.oldestLogIndex
            (server.ring.tailLogIndex - server.raft.lastApplied)
            server).entryView) ∨
        ∃ expired load,
          act = .main expired load ∧ proc.main = .becomeLeader ∧
            server.quorumLeft = 0 ∧
              after = (server.promote load).entryView := by
  cases step with
  | kept =>
      exact Or.inl rfl
  | bumped _ =>
      exact Or.inl (EntryView.bump_appliedPart _ _)
  | handled handled =>
      exact Or.inl handled.appliedPart
  | finished _ =>
      exact Or.inl (EntryView.complete_appliedPart _ _ _)
  | campaigned _ =>
      exact Or.inl rfl
  | promoted pc won =>
      exact Or.inr (Or.inr ⟨_, _, rfl, pc, won, rfl⟩)
  | committed _ _ _ _ =>
      exact Or.inl (commitTo_appliedPart _ _)
  | appended _ =>
      exact Or.inl rfl
  | applied =>
      unfold Server.applyCommitted
      split
      · rename_i leader
        exact Or.inr (Or.inl ⟨leader, rfl⟩)
      · exact Or.inl rfl
  | collected =>
      rcases collectGarbage_entryView server with
        same | ⟨removed, -, -, same⟩
      · rw [same]
        exact Or.inl rfl
      · rw [same]
        exact Or.inl rfl

/-- No section takes an applied command back. -/
theorem Process.EntryStep.adds
    {proc : Process}
    {server : Server}
    {act : Act}
    {after : EntryView}
    (step : proc.EntryStep server act after) :
    server.statemachine <+: after.commands := by
  rcases step.passes_on with
    same | ⟨-, rfl⟩ | ⟨expired, load, -, -, -, rfl⟩
  · have commands : after.commands = server.statemachine :=
      congrArg (fun part => part.2.1) same
    rw [commands]
  · exact applyPendingLoop_adds _ _ server
  · exact promote_adds server load

/-- A start has passed nothing on. -/
theorem startUp_applied
    (proc : Process)
    (outcomes : IoOutcomes)
    (kernel : KernelAnswers) :
    (proc.startUp outcomes kernel).1.server.statemachine = [] ∧
      (proc.startUp outcomes kernel).1.server.results = [] := by
  have created :
      ∀ sizeBytes,
        Frames (fun server : Server => (server.statemachine, server.results))
          (createRingFile kernel sizeBytes) := by
    intro sizeBytes
    refine Frames.of_wp fun server => ?_
    simp only [createRingFile, wp_bind, wp_get, wp_ite, wp_throw, wp_modify,
      wp_pure]
    split_ifs
  have restored :
      ∀ (server : Server) header,
        ((server.restoreHeader header).statemachine,
            (server.restoreHeader header).results) =
          (server.statemachine, server.results) := by
    intro server header
    unfold Server.restoreHeader
    generalize getU64Le header = headerTerm
    generalize getU64Le (header.drop 8) = headerVote
    dsimp only
    split <;> rfl
  have spec :=
    (initStorage_frames created (fun _ _ => rfl) restored (fun _ => rfl)
      fun _ => rfl).ends (proc.server.constructed.withOutcomes outcomes)
  refine execOrHalt_wp
    (fun result =>
      result.1.server.statemachine = [] ∧ result.1.server.results = [])
    spec ?_ ?_
  · exact fun _ _ same => Prod.mk.inj same
  · exact fun _ _ same => Prod.mk.inj same

/-- The process is not restarted. -/
def noRestart
    (_proc : Process)
    (input : Input) :
    Bool :=
  !input.act.isRestart

/-- A step of a process that has been started, as a change of its entries. -/
theorem Process.Started.entryStep
    {proc : Process}
    {outcomes : IoOutcomes}
    {act : Act}
    {result : Process × Outputs}
    (started : proc.Started)
    (stepped : proc.step outcomes act = some result)
    (stays : act.isRestart = false) :
    proc.EntryStep (proc.server.withOutcomes outcomes) act
      result.1.server.entryView := by
  have running := Process.running_of_step stepped (Act.not_restart stays)
  refine Process.step_entries ?_ stepped (Act.not_restart stays)
  refine List.length_pos_of_ne_nil fun empty => ?_
  have none : proc.server.raft.log = [] := empty
  refine started.wellformed.sentinel running ?_
  show proc.server.raft.log.map Entry.term = []
  rw [none]
  rfl

/-- What has been applied stays applied until the process is restarted. -/
theorem run_adds
    {inputs : List Input}
    {start final : Process}
    (started : start.Started)
    (run : runWhile noRestart Process.advance start inputs = some final) :
    final.Started ∧
      start.server.statemachine <+: final.server.statemachine := by
  refine runWhile_invariant
    (fun proc : Process =>
      proc.Started ∧ start.server.statemachine <+: proc.server.statemachine)
    (fun proc input next holds allowed advanced => ?_)
    ⟨started, List.prefix_rfl⟩ run
  obtain ⟨started, added⟩ := holds
  refine ⟨started.step advanced, added.trans ?_⟩
  obtain ⟨result, stepped, rfl⟩ := Option.map_eq_some_iff.mp advanced
  exact (started.entryStep stepped (Bool.not_eq_true' _ ▸ allowed)).adds

end NvmeofRaft
