import NvmeofRaft.LeadershipStep

namespace NvmeofRaft

/-!
# A step of a follower

A follower takes entries whose commands have arrived in its ring file, and
nothing else that it does touches the ring part of the file.
-/

section

variable {before after : Server} {layout : RingLayout}
variable (same : after.ringPart = before.ringPart)

include same

/-- Only the ring part of the file matters. -/
theorem Shows.of_ringPart
    {logIdx : Nat}
    {item : Entry × Nat}
    (shows : Shows before.io.file layout logIdx item) :
    Shows after.io.file layout logIdx item := by
  intro some
  obtain ⟨inRing, holds⟩ := shows some
  refine ⟨inRing, holds.congr fun byte behind _ => ?_⟩
  have inSlots : headerSize ≤ byte :=
    Nat.le_trans (headerSize_le_slotOffset _) behind
  rw [← ringPart_of_le after inSlots, same, ringPart_of_le before inSlots]

/-- The entries of a request stay where only the header changes. -/
theorem AppendEntriesRequest.ArrivedIn.of_ringPart
    {req : AppendEntriesRequest}
    {placed : List (Entry × Nat)}
    (arrived : req.ArrivedIn before.io.file layout placed) :
    req.ArrivedIn after.io.file layout placed :=
  fun offset item inside found =>
    (arrived offset item inside found).of_ringPart same

theorem LandedChunk.In.of_ringPart
    {landed : LandedChunk}
    {source : Nat}
    {placed : List (Entry × Nat)}
    (holds : landed.In before.io.file source placed) :
    landed.In after.io.file source placed := by
  intro offset entry start byte within found some inside starts stops
  have inSlots : headerSize ≤ slotOffset start + byte :=
    Nat.le_trans (headerSize_le_slotOffset start) (Nat.le_add_right _ _)
  rw [← ringPart_of_le after inSlots, same, ringPart_of_le before inSlots]
  exact holds offset entry start byte within found some inside starts stops

end

section

variable {req : AppendEntriesRequest} {leader : Nat} {layout : RingLayout}
variable {placed : List (Entry × Nat)}

/-- A request speaks of entries that were placed before it was built. -/
theorem AppendEntriesRequest.ArrivedIn.append
    {file : ByteImage}
    (arrived : req.ArrivedIn file layout placed)
    (sound : req.Sound leader layout placed)
    (added : List (Entry × Nat)) :
    req.ArrivedIn file layout (placed ++ added) := by
  intro offset item inside found
  have within := (sound (Nat.zero_lt_of_lt inside)).within
  rw [List.getElem?_append_left (by omega)] at found
  exact arrived offset item inside found

/-- Entries that are placed later leave a landed chunk as it is. -/
theorem LandedChunk.In.append
    {landed : LandedChunk}
    {file : ByteImage}
    {source : Nat}
    (holds : landed.In file source placed)
    (describes : landed.req.DescribesPlaced leader layout placed)
    (added : List (Entry × Nat)) :
    landed.In file source (placed ++ added) := by
  intro offset entry start byte inside found
  have within := describes.within
  rw [List.getElem?_append_left (by omega)] at found
  exact holds offset entry start byte inside found

/-- Entries that are placed later leave a follower as it is. -/
theorem Process.FollowsIn.append
    {proc : Process}
    (follows : proc.FollowsIn layout placed)
    (added : List (Entry × Nat)) :
    proc.FollowsIn layout (placed ++ added) := by
  refine ⟨follows.role, fun running => ?_, ?_⟩
  · exact (follows.defers running).append added
  · intro running position item found inLog
    have upTo : proc.server.ring.tailLogIndex ≤ placed.length + 1 :=
      (follows.defers running).upTo
    rw [List.getElem?_append_left (by omega)] at found
    exact follows.shows running position item found inLog

end

section

variable {proc : Process} {outcomes : IoOutcomes} {act : Act}
variable {result : Process × Outputs} {leader : Nat} {layout : RingLayout}
variable {placed : List (Entry × Nat)}

/-- The tail behind the end of an append handler. -/
theorem View.complete_tail_le
    (view : View)
    (pending : PendingAppend) :
    (view.complete pending).tail ≤
      max view.tail (pending.newTail + pending.req.numEntries) := by
  simp only [View.complete, View.followCommit, View.build]
  split
  · exact le_max_right _ _
  · exact le_max_left _ _

/-- The batch of an accepted request starts inside the log. -/
theorem View.Accepts.prev_le
    {view : View}
    {req : AppendEntriesRequest}
    (accepts : view.Accepts req) :
    req.prevLogIndex ≤ view.tail - 1 := by
  have prevOk := accepts.prevOk
  simp only [View.prevOk, Bool.or_eq_true, Bool.and_eq_true,
    decide_eq_true_eq] at prevOk
  omega

/-- What a follower keeps in a step of the run. -/
theorem Process.FollowsIn.step
    (follows : proc.FollowsIn layout placed)
    (started : proc.Started)
    (stepped : proc.step outcomes act = some result)
    (stays : act.isRestart = false)
    (noWin : proc.node.wins act = false)
    (larger : layout.ringSlots ≤ proc.server.ring.ringSlots)
    (handles :
      ∀ src req,
        act = .handleAppend src req →
        req.Sound leader layout placed ∧
          (req.dataAlreadyCopied = true →
            req.ArrivedIn proc.server.io.file layout placed))
    (finishes :
      ∀ index src pending,
        act = .handleAppendFinish index true →
        proc.threads[index]? = some (.appendHandler src pending) →
        pending.Finishes proc.server leader layout placed ∧
          pending.req.ArrivedIn proc.server.io.file layout placed) :
    result.1.FollowsIn layout placed := by
  have running := Process.running_of_step stepped (Act.not_restart stays)
  have does := Process.step_does started.wellformed stepped
  have other := follows.role
  obtain ⟨ring, -⟩ :=
    proc.step_image stepped stays noWin fun _ _ _ => other
  have taken :
      ∀ (req : AppendEntriesRequest) position item,
        req.ArrivedIn proc.server.io.file layout placed →
        req.prevLogIndex ≤ position →
        position < req.prevLogIndex + req.numEntries →
        placed[position]? = some item →
        Shows proc.server.io.file layout (position + 1) item := by
    intro req position item arrived starts stops found
    have index :
        req.prevLogIndex + (position - req.prevLogIndex) = position := by
      omega
    have shows := arrived (position - req.prevLogIndex) item (by omega)
      (by rw [index]; exact found)
    rwa [index] at shows
  refine ⟨proc.step_other stepped stays started noWin other, fun _ => ?_, ?_⟩
  · exact proc.step_defers (follows.defers running) stepped
      (Act.not_restart stays) noWin other larger
      (fun src req same => (handles src req same).1)
      (fun index src pending same found =>
        (finishes index src pending same found).1)
  · intro _ position item found inLog
    refine Shows.of_ringPart ring ?_
    by_cases old : position + 1 < proc.server.ring.tailLogIndex
    · exact follows.shows running position item found old
    · have inLog' : position + 1 < result.1.node.view.tail := inLog
      have old' : ¬ position + 1 < proc.node.view.tail := old
      cases Node.Step.logEffect does with
      | kept same =>
          rw [same.tail] at inLog'
          exact absurd inLog' old'
      | won pc won _ _ =>
          simp [Node.wins, pc, won] at noWin
      | pushed leads _ =>
          exact absurd leads other
      | @completed src req _ accepts brings copied viewed =>
          obtain ⟨-, arrived⟩ := handles src req rfl
          have met : (proc.node.view.meet req.term).tail =
              proc.node.view.tail :=
            (View.revoted_meet req.term).sameLog.tail
          have reached := accepts.prev_le
          have last := View.complete_tail_le
            (proc.node.view.meet req.term)
            ((proc.node.view.meet req.term).pending req)
          rw [← viewed, met] at last
          rw [met] at reached
          have newTail :
              ((proc.node.view.meet req.term).pending req).newTail +
                  ((proc.node.view.meet req.term).pending req).req.numEntries =
                req.prevLogIndex + 1 + req.numEntries :=
            rfl
          exact taken req position item (arrived copied) (by omega) (by omega)
            found
      | @finished index src pending _ found' viewed =>
          obtain ⟨ends, arrived⟩ := finishes index src pending rfl found'
          have last := View.complete_tail_le proc.node.view pending
          rw [← viewed] at last
          have newTail := ends.newTail
          have tail : proc.node.view.tail = _ := ends.tail
          exact taken pending.req position item arrived (by omega) (by omega)
            found
      | trimmed _ viewed =>
          rw [viewed] at inLog'
          exact absurd inLog' old'
      | restarted _ =>
          cases stays
      | restartThrew _ _ =>
          cases stays

end

end NvmeofRaft
