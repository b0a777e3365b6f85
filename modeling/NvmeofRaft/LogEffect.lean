import NvmeofRaft.NodeStep
import NvmeofRaft.SlotRecords

namespace NvmeofRaft

/-!
# What a step does to the log

Most steps leave the log and its tail alone.  The others append entries of the
own term, build entries of a request, trim the front, or start over.
-/

/-- Only term, role and votes may differ. -/
def View.Revoted (before after : View) : Prop :=
  ∃ term role votes, after = { before with term, role, votes }

namespace View

variable {view : View}

theorem revoted_refl : view.Revoted view :=
  ⟨_, _, _, rfl⟩

/-- A higher term concerns the ballot only. -/
theorem revoted_bump
    (msgTerm : Nat) :
    view.Revoted (view.bump msgTerm) := by
  unfold View.bump
  split
  · exact ⟨_, _, _, rfl⟩
  · exact revoted_refl

theorem revoted_meet
    (reqTerm : Nat) :
    view.Revoted (view.meet reqTerm) := by
  obtain ⟨term, role, votes, same⟩ := view.revoted_bump reqTerm
  unfold View.meet View.stepDown
  rw [same]
  split
  · exact ⟨_, _, _, rfl⟩
  · exact ⟨_, _, _, rfl⟩

theorem revoted_voted
    (req : RequestVoteRequest) :
    view.Revoted (view.voted req) := by
  obtain ⟨term, role, votes, same⟩ := view.revoted_bump req.term
  unfold View.voted
  dsimp only
  split
  · rw [same]
    exact ⟨_, _, _, rfl⟩
  · rw [same]
    exact ⟨_, _, _, rfl⟩

theorem revoted_reply
    (peerIndex : Nat)
    (req : RequestVoteRequest)
    (rsp : RequestVoteResponse) :
    view.Revoted (view.reply peerIndex req rsp) := by
  unfold View.reply
  split
  · exact ⟨_, _, _, rfl⟩
  · exact revoted_bump rsp.term

end View

/-- The log and the tail are the same. -/
structure View.SameLog (before after : View) : Prop where
  log : after.log = before.log
  tail : after.tail = before.tail

/-- What concerns the ballot leaves the log alone. -/
theorem View.Revoted.sameLog
    {before after : View}
    (revoted : before.Revoted after) :
    before.SameLog after := by
  obtain ⟨_, _, _, rfl⟩ := revoted
  exact ⟨rfl, rfl⟩

/-- A booked answer leaves the log alone. -/
theorem View.Booked.sameLog
    {before after : View}
    {fi : Nat}
    {call : AppendCall}
    {answer : Option AppendEntriesResponse}
    (booked : before.Booked fi call answer after) :
    before.SameLog after := by
  cases booked <;> exact ⟨rfl, rfl⟩

/-- What a step does to the log of a node. -/
inductive Node.LogEffect
    (node : Node) :
    Act → Node → Prop where
  | kept
      {act : Act}
      {after : Node} :
      node.view.SameLog after.view →
      LogEffect node act after
  | won
      {expired : Bool}
      {load : Nat → Option (List UInt8)}
      {after : Node} :
      node.main = .becomeLeader →
      node.view.quorumLeft = 0 →
      after.view.log = node.view.log ++ [node.view.term] →
      after.view.tail = node.view.tail + 1 →
      LogEffect node (.main expired load) after
  | pushed
      {sink : Nat}
      {commands : List (List UInt8)}
      {after : Node} :
      node.view.role = .leader →
      after.view = node.view.pushMany commands.length →
      LogEffect node (.apply sink commands) after
  | completed
      {src : Nat}
      {req : AppendEntriesRequest}
      {after : Node} :
      (node.view.meet req.term).Accepts req →
      (node.view.meet req.term).Extends req →
      req.dataAlreadyCopied = true →
      after.view =
        (node.view.meet req.term).complete
          ((node.view.meet req.term).pending req) →
      LogEffect node (.handleAppend src req) after
  | finished
      {index src : Nat}
      {pending : PendingAppend}
      {after : Node} :
      node.threads[index]? = some (.appendHandler src pending) →
      after.view = node.view.complete pending →
      LogEffect node (.handleAppendFinish index true) after
  | trimmed
      {removed : Nat}
      {after : Node} :
      node.view.Trims removed →
      after.view = node.view.trim removed →
      LogEffect node .slotGc after
  | restarted
      {kernel : KernelAnswers}
      {cacheLost : Bool}
      {after : Node} :
      after.view = node.view.constructed.started →
      LogEffect node (.restart kernel cacheLost) after
  | restartThrew
      {kernel : KernelAnswers}
      {cacheLost : Bool}
      {after : Node} :
      after.view = node.view.constructed →
      after.halted = true →
      LogEffect node (.restart kernel cacheLost) after

/-- The first section of the append handler, as far as the log goes. -/
theorem View.Handled.logEffect
    {node : Node}
    {src : Nat}
    {req : AppendEntriesRequest}
    {result : Option AppendProgress}
    {after : Node}
    (handled : node.view.Handled req result after.view) :
    node.LogEffect (.handleAppend src req) after := by
  have met : node.view.SameLog (node.view.meet req.term) :=
    (View.revoted_meet req.term).sameLog
  generalize viewed : after.view = view at handled
  cases handled with
  | demotionThrew higher =>
      refine .kept ?_
      rw [viewed]
      exact (View.revoted_bump req.term).sameLog
  | refused _ _ =>
      refine .kept ?_
      rw [viewed]
      exact met
  | followed _ _ _ =>
      refine .kept ?_
      rw [viewed]
      exact ⟨met.log, met.tail⟩
  | copying _ _ _ =>
      refine .kept ?_
      rw [viewed]
      exact met
  | completed accepts brings copied _ =>
      exact .completed accepts brings copied viewed

/-- The effect of a step on the log. -/
theorem Node.Step.logEffect
    {mapped : Nat → Prop}
    {node after : Node}
    {act : Act}
    {outputs : Outputs}
    (step : node.Step mapped act after outputs) :
    node.LogEffect act after := by
  have same : node.view.SameLog node.view := ⟨rfl, rfl⟩
  cases step with
  | electionWon pc won _ =>
      exact .won pc won rfl rfl
  | electionThrew pc won _ =>
      exact .won pc won rfl rfl
  | commandsAppended leader =>
      exact .pushed leader rfl
  | appendReplied handled =>
      exact handled.logEffect
  | appendBegun handled =>
      exact handled.logEffect
  | appendHandlerThrew handled =>
      exact handled.logEffect
  | @appendFinished index src pending copied view found viewed =>
      cases copied with
      | true =>
          exact .finished found viewed
      | false =>
          refine .kept ?_
          rw [viewed]
          exact same
  | appendFinishThrew found =>
      exact .finished found rfl
  | collected trims =>
      exact .trimmed trims rfl
  | restarted =>
      exact .restarted rfl
  | restartThrew =>
      exact .restartThrew rfl rfl
  | voteCounted _ =>
      exact .kept (View.revoted_reply _ _ _).sameLog
  | voteCountThrew _ =>
      exact .kept (View.revoted_reply _ _ _).sameLog
  | appendAnswered _ booked =>
      exact .kept booked.sameLog
  | voteHandled =>
      exact .kept (View.revoted_voted _).sameLog
  | voteHandlerThrew viewed =>
      rcases viewed with rfl | rfl
      · exact .kept (View.revoted_bump _).sameLog
      · exact .kept (View.revoted_voted _).sameLog
  | _ =>
      exact .kept ⟨rfl, rfl⟩

/-- An append request does not shorten the log. -/
theorem View.length_le_build
    (view : View)
    (req : AppendEntriesRequest)
    (newTail skipEntries : Nat) :
    view.log.length ≤ (view.build req newTail skipEntries).log.length := by
  unfold View.build
  split
  · simp
  · exact le_refl _

theorem length_pos_of_logEffect
    {node after : Node}
    {act : Act}
    (effect : node.LogEffect act after)
    (sentinel : 0 < node.view.log.length)
    (running : after.halted = false) :
    0 < after.view.log.length := by
  cases effect with
  | kept same =>
      rw [same.log]
      exact sentinel
  | won _ _ log _ =>
      rw [log]
      simp
  | pushed _ viewed =>
      rw [viewed]
      simp only [View.pushMany, List.length_append]
      omega
  | @completed src req _ _ _ _ viewed =>
      have met := (node.view.revoted_meet req.term).sameLog
      rw [← met.log] at sentinel
      rw [viewed]
      exact Nat.lt_of_lt_of_le sentinel (View.length_le_build _ _ _ _)
  | finished _ viewed =>
      rw [viewed]
      exact Nat.lt_of_lt_of_le sentinel (View.length_le_build _ _ _ _)
  | trimmed _ viewed =>
      rw [viewed]
      simp only [View.trim, List.length_append, List.length_take]
      omega
  | restarted viewed =>
      rw [viewed]
      exact Nat.one_pos
  | restartThrew _ halted =>
      rw [halted] at running
      cases running

/-- A start leaves no slot record. -/
theorem initStorage_slots
    (kernel : KernelAnswers)
    {server : Server}
    (fresh : server.slotView = ⟨∅, 0⟩) :
    wp (initStorage kernel)
      (fun _ final => final.slotView = ⟨∅, 0⟩)
      (fun _ final => final.slotView = ⟨∅, 0⟩) server := by
  simp only [initStorage, wp_bind, wp_get]
  refine wp_mono (createRingFile_spec kernel _ server) ?_ ?_
  · rintro actual middle ⟨-, sameRing, -⟩
    have kept : middle.slotView = ⟨∅, 0⟩ := by
      rw [← fresh, Server.slotView, sameRing]
      rfl
    simp only [wp_ite, wp_bind, wp_throw]
    split_ifs
    · exact kept
    · exact kept
    · cases kernel.fiemap with
      | none =>
          exact kept
      | some extents =>
          simp only [wp_bind, wp_modify, wp_discard]
          refine wp_mono (getPba_spec _ _ _) ?_ ?_
          · rintro _ located rfl
            simp only [recoverHeader, readAtFile, wp_tryCatch, wp_bind,
              wp_get, wp_ite, wp_pure, wp_throw, wp_modify]
            split <;> rfl
          · rintro _ located rfl
            exact kept
  · rintro _ final ⟨-, sameRing⟩
    rw [← fresh, Server.slotView, sameRing]
    rfl

/-- A node starts without records. -/
theorem startUp_slots
    (proc : Process)
    (outcomes : IoOutcomes)
    (kernel : KernelAnswers) :
    (proc.startUp outcomes kernel).1.server.slotView = ⟨∅, 0⟩ := by
  have spec := initStorage_slots kernel
    (show (proc.server.constructed.withOutcomes outcomes).slotView = ⟨∅, 0⟩
      from rfl)
  refine execOrHalt_wp
    (fun result => result.1.server.slotView = ⟨∅, 0⟩) spec ?_ ?_
  · exact fun _ _ same => same
  · exact fun _ _ same => same

theorem slotsPositive_of_empty
    {server : Server}
    (empty : server.slotView = ⟨∅, 0⟩) :
    server.SlotsPositive := by
  intro logIdx record held
  have none : server.ring.logSlotMap = ∅ := congrArg SlotView.slots empty
  rw [none, AList.lookup_empty] at held
  cases held

/-- Every step keeps a process well-formed. -/
theorem Process.step_wellformed
    {proc : Process}
    {outcomes : IoOutcomes}
    {act : Act}
    {result : Process × Outputs}
    (wellformed : proc.Wellformed)
    (stepped : proc.step outcomes act = some result) :
    result.1.Wellformed := by
  have does := Process.step_does wellformed stepped
  have samePages : result.1.server.ring.numPages =
      proc.server.ring.numPages :=
    congrArg Configuration.numPages (Process.step_configuration stepped)
  refine ⟨?_, ?_, ?_⟩
  · rw [RingLog.fileSizeBytes, samePages]
    exact wellformed.headerFits
  · by_cases restarts : ∃ kernel cacheLost, act = .restart kernel cacheLost
    · obtain ⟨kernel, cacheLost, rfl⟩ := restarts
      simp only [Process.step, Option.some.injEq] at stepped
      rw [← stepped]
      exact slotsPositive_of_empty (startUp_slots _ outcomes kernel)
    · have noRestart :
          ∀ kernel cacheLost, act ≠ .restart kernel cacheLost :=
        fun kernel cacheLost same => restarts ⟨kernel, cacheLost, same⟩
      have running := Process.running_of_step stepped noRestart
      exact (Process.step_slots (wellformed.sentinel running) stepped
        noRestart).positive wellformed.positive
  · intro running
    refine List.ne_nil_of_length_pos ?_
    by_cases before : proc.halted = false
    · exact length_pos_of_logEffect does.logEffect
        (List.length_pos_of_ne_nil (wellformed.sentinel before)) running
    · by_cases restarts : ∃ kernel cacheLost, act = .restart kernel cacheLost
      · obtain ⟨kernel, cacheLost, rfl⟩ := restarts
        unfold Process.Does at does
        generalize ended : result.1.node = after at does
        generalize result.2 = outputs at does
        cases does with
        | restarted =>
            have log : result.1.server.view.log = [0] :=
              congrArg (fun node => node.view.log) ended
            rw [log]
            exact Nat.one_pos
        | restartThrew =>
            have halted : result.1.halted = true :=
              congrArg Node.halted ended
            rw [halted] at running
            cases running
      · exact absurd (Process.running_of_step stepped
          fun kernel cacheLost same => restarts ⟨kernel, cacheLost, same⟩)
            before

/-- The view a node is constructed with. -/
def Membership.constructedView
    {n : Nat}
    (members : Membership n)
    (node : Fin n) :
    View where
  id := members.ids node
  index := node
  term := 0
  role := .follower
  votes := List.replicate n 0
  nexts := List.replicate n 0
  matched := List.replicate n 0
  log := []
  tail := 0
  commit := 0
  applied := 0

/-- A node that has not done anything yet. -/
def Membership.freshNode
    {n : Nat}
    (members : Membership n)
    (node : Fin n)
    (halted : Bool) :
    Node where
  view :=
    if halted then
      members.constructedView node
    else
      (members.constructedView node).started
  main := .top
  threads := []
  halted := halted
  history := []

section

variable {n : Nat} (members : Membership n) (settings : Fin n → Settings)
variable (node : Fin n)

theorem server_headerFits :
    headerSize ≤ (members.server settings node).ring.fileSizeBytes := by
  have same : (members.boot settings node).server.ring.numPages =
      (members.server settings node).ring.numPages :=
    congrArg Configuration.numPages (startUp_configuration _ _ _)
  have booted := boot_headerFits members settings node
  rw [RingLog.fileSizeBytes, same] at booted
  exact booted

theorem server_constructedView :
    (members.server settings node).constructed.view =
      members.constructedView node := by
  rw [constructed_view]
  simp only [View.constructed, Server.view, Membership.server,
    Membership.constructedView, List.map_ofFn, Function.comp_def,
    List.ofFn_const, List.map_replicate]

/-- A booted node is fresh. -/
theorem boot_node :
    ∃ halted,
      (members.boot settings node).node = members.freshNode node halted := by
  have spec := initStorage_spec { fiemap := some (settings node).extents }
    (show headerSize ≤
      ((members.server settings node).constructed.withOutcomes
        {}).ring.fileSizeBytes from server_headerFits members settings node)
  have same :
      ((members.server settings node).constructed.withOutcomes {}).view =
        members.constructedView node :=
    server_constructedView members settings node
  rw [same] at spec
  refine execOrHalt_wp
    (fun result => ∃ halted,
      result.1.node = members.freshNode node halted) spec ?_ ?_
  · rintro _ server ⟨viewed, -⟩
    refine ⟨false, ?_⟩
    simp only [Process.node, viewed]
    rfl
  · intro _ server viewed
    refine ⟨true, ?_⟩
    simp only [Process.node, Process.halt, viewed]
    rfl

/-- A booted process is well-formed. -/
theorem boot_wellformed :
    (members.boot settings node).Wellformed where
  headerFits := boot_headerFits members settings node
  positive := slotsPositive_of_empty (startUp_slots _ _ _)
  sentinel := by
    intro running
    obtain ⟨halted, fresh⟩ := boot_node members settings node
    have same : (members.boot settings node).halted = halted :=
      congrArg Node.halted fresh
    rw [← same, running] at fresh
    have log : (members.boot settings node).server.view.log = [0] :=
      congrArg (fun node => node.view.log) fresh
    simp [log]

end

/-- Every process of a run is well-formed. -/
theorem run_wellformed
    {allowed : Process → Input → Bool}
    {start final : Process}
    {inputs : List Input}
    (wellformed : start.Wellformed)
    (run : runWhile allowed Process.advance start inputs = some final) :
    final.Wellformed := by
  refine runWhile_invariant Process.Wellformed
    (fun proc input next holds _ advanced => ?_) wellformed run
  obtain ⟨result, stepped, rfl⟩ := Option.map_eq_some_iff.mp advanced
  exact Process.step_wellformed holds stepped

end NvmeofRaft
