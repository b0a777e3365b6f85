import NvmeofRaft.OneLeader

namespace NvmeofRaft

/-!
# A step of the node that leads

Before its election, during its leadership and behind it: what a step of the
node does to its records, to the image on its volume and to the placed entries.
-/

section

variable {mapped : Nat → Prop} {node after : Node} {act : Act}
variable {outputs : Outputs}

/-- Who does not lead and does not win does not lead afterwards. -/
theorem Node.Step.stays_other
    (step : node.Step mapped act after outputs)
    (stays : act.isRestart = false)
    (noWin : node.wins act = false)
    (other : node.view.role ≠ .leader) :
    after.view.role ≠ .leader := by
  intro leads
  rcases step.leads_or_wins (Act.not_restart stays) leads with
    ⟨before, -⟩ | ⟨wins, -⟩
  · exact other before
  · rw [noWin] at wins
    cases wins

/-- A vote message of a higher term ends the leadership. -/
theorem Node.Step.demoted
    (step : node.Step mapped act after outputs)
    (demotes : node.demotes act = true)
    (noAppend : ∀ src req, act ≠ .handleAppend src req) :
    after.view.role ≠ .leader := by
  intro leads
  have sameTerm : after.view.term = node.view.term := by
    have stays : act.isRestart = false := by
      cases act with
      | restart kernel cacheLost =>
          cases demotes
      | _ =>
          rfl
    rcases step.leads_or_wins (Act.not_restart stays) leads with
      ⟨-, same⟩ | ⟨-, same⟩
    · exact same
    · exact same
  have bumped :
      ∀ {term : Nat},
        node.view.term < term →
        node.view.term < (node.view.bump term).term := by
    intro term higher
    rw [View.bump_of_lt higher]
    exact higher
  have voted :
      ∀ {req : RequestVoteRequest},
        node.view.term < req.term →
        node.view.term < (node.view.voted req).term := by
    intro req higher
    have raised := bumped higher
    unfold View.voted
    dsimp only
    split
    · exact raised
    · exact raised
  cases step with
  | voteCounted found =>
      have higher := of_decide_eq_true demotes
      have raised := bumped higher
      dsimp only at sameTerm
      rw [View.reply, if_neg (fun counted => counted.1 higher)] at sameTerm
      omega
  | voteCountThrew found =>
      have higher := of_decide_eq_true demotes
      have raised := bumped higher
      dsimp only at sameTerm
      rw [View.reply, if_neg (fun counted => counted.1 higher)] at sameTerm
      omega
  | voteHandled =>
      have raised := voted (of_decide_eq_true demotes)
      dsimp only at sameTerm
      omega
  | voteHandlerThrew viewed =>
      have higher := of_decide_eq_true demotes
      dsimp only at sameTerm
      rcases viewed with rfl | rfl
      · have raised := bumped higher
        omega
      · have raised := voted higher
        omega
  | appendReplied _ =>
      exact noAppend _ _ rfl
  | appendBegun _ =>
      exact noAppend _ _ rfl
  | appendHandlerThrew _ =>
      exact noAppend _ _ rfl
  | _ =>
      cases demotes

end

section

variable {proc : Process} {outcomes : IoOutcomes} {act : Act}
variable {result : Process × Outputs} {layout : RingLayout}
variable {placed : List (Entry × Nat)}
variable (stepped : proc.step outcomes act = some result)
variable (stays : act.isRestart = false)

theorem appendedSince_of_other
    {before after : Server}
    (other : after.raft.state ≠ .leader) :
    after.appendedSince before = [] :=
  if_neg other

include stepped stays

/-- A step that neither wins nor appends leaves ring and image alone. -/
theorem Process.step_image
    (noWin : proc.node.wins act = false)
    (noAppend :
      ∀ sink commands,
        act = .apply sink commands → proc.server.raft.state ≠ .leader) :
    result.1.server.ringPart = proc.server.ringPart ∧
      result.1.server.layout = proc.server.layout := by
  have noRestart := Act.not_restart stays
  refine ⟨?_, ?_⟩
  · exact Process.step_unled ringPart_unaffected (fun _ _ => rfl) stepped
      noRestart noWin noAppend fun _ => collectGarbage_ringPart _
  · exact Process.step_unled layout_unaffected (fun _ _ => rfl) stepped
      noRestart noWin noAppend fun _ => collectGarbage_layout _

/-- A node that does not lead keeps its slot records. -/
theorem Process.step_records
    (noWin : proc.node.wins act = false)
    (other : proc.server.raft.state ≠ .leader) :
    result.1.server.ring.logSlotMap = proc.server.ring.logSlotMap := by
  have same :=
    Process.step_unled slotView_unaffected (fun _ _ => rfl) stepped
      (Act.not_restart stays) noWin (fun _ _ _ => other) fun _ => by
        have still :
            (proc.server.withOutcomes outcomes).collectGarbage =
              proc.server.withOutcomes outcomes :=
          if_neg other
        rw [still]
  exact congrArg SlotView.slots same

variable (started : proc.Started)

include started in
/-- The leader is a leader in the next state only if it stays or wins. -/
theorem Process.step_other
    (noWin : proc.node.wins act = false)
    (other : proc.server.raft.state ≠ .leader) :
    result.1.server.raft.state ≠ .leader :=
  Node.Step.stays_other (Process.step_does started.wellformed stepped) stays
    noWin other

end

/-- A leader has its records. -/
theorem Process.Leadership.records
    {proc : Process}
    {layout : RingLayout}
    {placed : List (Entry × Nat)}
    (leadership : proc.Leadership layout placed)
    (leads : proc.server.raft.state = .leader) :
    proc.Records layout placed := by
  cases leadership with
  | before other _ =>
      exact absurd leads other
  | during _ records =>
      exact records
  | behind _ other =>
      exact absurd leads other

/-- What the node that leads in the run keeps. -/
structure Process.LeadsIn
    (proc : Process)
    (layout : RingLayout)
    (placed : List (Entry × Nat)) : Prop where
  leadership : proc.Leadership layout placed
  image : HoldsPlaced proc.server.io.file placed
  laidOut : proc.server.layout = layout

/-- The placed entries behind a step. -/
def Process.placedBehind
    (after before : Process)
    (placed : List (Entry × Nat)) :
    List (Entry × Nat) :=
  placed ++ after.server.appendedSince before.server

section

variable {proc : Process} {outcomes : IoOutcomes} {act : Act}
variable {result : Process × Outputs} {layout : RingLayout}
variable {placed : List (Entry × Nat)}
variable (stepped : proc.step outcomes act = some result)
variable (stays : act.isRestart = false)

include stepped stays

/-- A step after which the node does not lead. -/
theorem Process.LeadsIn.unled
    (leads : proc.LeadsIn layout placed)
    (noWin : proc.node.wins act = false)
    (noAppend :
      ∀ sink commands,
        act = .apply sink commands → proc.server.raft.state ≠ .leader)
    (other : result.1.server.raft.state ≠ .leader)
    (leadership : result.1.Leadership layout placed) :
    result.1.LeadsIn layout (result.1.placedBehind proc placed) := by
  obtain ⟨ring, laidOut⟩ := proc.step_image stepped stays noWin noAppend
  rw [Process.placedBehind, appendedSince_of_other other, List.append_nil]
  exact ⟨leadership, leads.image.of_ringPart ring,
    laidOut.trans leads.laidOut⟩

variable (started : proc.Started)

include started

/-- The step that wins the election. -/
theorem Process.LeadsIn.won
    (leads : proc.LeadsIn layout [])
    (tiled : Tiles 0 layout.extents)
    (succeed : outcomes.succeed = true)
    (wins : proc.node.wins act = true) :
    result.1.LeadsIn layout (result.1.placedBehind proc []) := by
  obtain ⟨leadership, -, laidOut⟩ := leads
  cases leadership with
  | during some _ =>
      exact absurd rfl some
  | behind some _ =>
      exact absurd rfl some
  | before _ waits =>
      have running := Process.running_of_step stepped (Act.not_restart stays)
      obtain ⟨defers, noRecords⟩ := waits running
      have tail : proc.server.ring.tailLogIndex = 1 := by
        have first : 0 < proc.server.ring.tailLogIndex := defers.started
        have last : proc.server.ring.tailLogIndex ≤ 0 + 1 := defers.upTo
        omega
      have length : proc.server.raft.log.length = 1 :=
        (show proc.server.raft.log.length =
          proc.server.ring.tailLogIndex from defers.length).trans tail
      have tiled' : Tiles 0 proc.server.io.extents := by
        have extents : proc.server.io.extents = layout.extents :=
          congrArg RingLayout.extents laidOut
        rw [extents]
        exact tiled
      obtain ⟨some, records, image⟩ :=
        @Process.Records.of_election _ ⟨outcomes, act⟩ _ started wins
          succeed stepped tiled' noRecords tail length
      rw [laidOut] at records
      rw [Process.placedBehind, List.nil_append]
      exact ⟨.during some records, image, records.recalls.layout⟩

/-- A step before the election. -/
theorem Process.LeadsIn.waits
    (leads : proc.LeadsIn layout [])
    (noWin : proc.node.wins act = false)
    (noRequest : ∀ src req, act ≠ .handleAppend src req)
    (noFinish : ∀ index copied, act ≠ .handleAppendFinish index copied) :
    result.1.LeadsIn layout (result.1.placedBehind proc []) := by
  obtain ⟨leadership, image, laidOut⟩ := leads
  cases leadership with
  | during some _ =>
      exact absurd rfl some
  | behind some _ =>
      exact absurd rfl some
  | before other waits =>
      have running := Process.running_of_step stepped (Act.not_restart stays)
      obtain ⟨defers, noRecords⟩ := waits running
      have after := proc.step_other stepped stays started noWin other
      refine Process.LeadsIn.unled stepped stays
        ⟨.before other waits, image, laidOut⟩ noWin (fun _ _ _ => other) after
        (.before after fun _ => ⟨?_, ?_⟩)
      · exact @Process.step_defers proc _ _ _ 0 layout _ defers stepped
          (Act.not_restart stays) noWin other
          (congrArg RingLayout.ringSlots laidOut).ge
          (fun src req same => absurd same (noRequest src req))
          (fun index src pending same => absurd same (noFinish index true))
      · rw [proc.step_records stepped stays noWin other]
        exact noRecords

/-- A step of the leadership, or the one that ends it. -/
theorem Process.LeadsIn.leads
    (records : proc.Records layout placed)
    (some : placed ≠ [])
    (image : HoldsPlaced proc.server.io.file placed)
    (tiled : Tiles 0 layout.extents)
    (succeed : outcomes.succeed = true)
    (noRequest : ∀ src req, act ≠ .handleAppend src req)
    (noFinish : ∀ index copied, act ≠ .handleAppendFinish index copied)
    (small : (result.1.placedBehind proc placed).length + 1 < 2 ^ 64) :
    result.1.LeadsIn layout (result.1.placedBehind proc placed) := by
  have leads : proc.node.main.leads = true :=
    records.recalls.chaining.leads
  by_cases inside : oneLeadership proc { outcomes, act } = true
  · obtain ⟨records', image'⟩ :=
      @Process.Records.goesOn _ { outcomes, act } _ _ _ tiled records
        (Bool.and_eq_true_iff.mpr ⟨inside, succeed⟩) stepped image small
    exact ⟨.during (List.append_ne_nil_of_left_ne_nil some _) records',
      image', records'.recalls.layout⟩
  · have demotes : proc.node.demotes act = true := by
      unfold oneLeadership at inside
      cases act with
      | restart kernel cacheLost =>
          cases stays
      | handleAppendFinish index copied =>
          exact absurd rfl (noFinish index copied)
      | handleAppend src req =>
          exact absurd rfl (noRequest src req)
      | handleVote src req =>
          have higher : proc.server.raft.currentTerm < req.term := by
            simpa using inside
          exact decide_eq_true higher
      | voteReply index rsp =>
          have higher : proc.server.raft.currentTerm < rsp.term := by
            simpa using inside
          exact decide_eq_true higher
      | _ =>
          exact absurd rfl inside
    have after : result.1.server.raft.state ≠ .leader :=
      Node.Step.demoted (Process.step_does started.wellformed stepped) demotes
        noRequest
    refine Process.LeadsIn.unled stepped stays
      ⟨.during some records, image, records.recalls.layout⟩
      (Node.leads_quiet leads act).2 ?_ after (.behind some after)
    rintro sink commands rfl
    cases demotes

/-- What the node that leads keeps in a step of the run. -/
theorem Process.LeadsIn.step
    (leads : proc.LeadsIn layout placed)
    (tiled : Tiles 0 layout.extents)
    (succeed : outcomes.succeed = true)
    (wins : proc.node.wins act = true → placed = [])
    (noRequest : ∀ src req, act ≠ .handleAppend src req)
    (noFinish : ∀ index copied, act ≠ .handleAppendFinish index copied)
    (small : (result.1.placedBehind proc placed).length + 1 < 2 ^ 64) :
    result.1.LeadsIn layout (result.1.placedBehind proc placed) := by
  by_cases won : proc.node.wins act = true
  · have nothing := wins won
    subst nothing
    exact Process.LeadsIn.won stepped stays started leads tiled succeed won
  · have noWin : proc.node.wins act = false := by
      simpa using won
    obtain ⟨leadership, image, laidOut⟩ := leads
    cases leadership with
    | before other waits =>
        exact Process.LeadsIn.waits stepped stays started
          ⟨.before other waits, image, laidOut⟩ noWin noRequest noFinish
    | during some records =>
        exact Process.LeadsIn.leads stepped stays started records some image
          tiled succeed noRequest noFinish small
    | behind some other =>
        have after := proc.step_other stepped stays started noWin other
        exact Process.LeadsIn.unled stepped stays
          ⟨.behind some other, image, laidOut⟩ noWin (fun _ _ _ => other) after
          (.behind some after)

end

end NvmeofRaft
