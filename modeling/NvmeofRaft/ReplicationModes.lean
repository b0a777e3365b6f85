import NvmeofRaft.BlockCopy
import NvmeofRaft.SourceFidelity

namespace NvmeofRaft

/-!
# The two replication modes

One round of `append_entries_worker` for a follower.  In destination-side mode
the follower runs `do_pba_copy` between the two lock sections of its handler;
in leader-side mode the leader runs it before it sends the request, and the
handler goes straight on.

The devices hold the ring slots.  The header sector that the handler persists
is part of the follower's own file and of no slot.
-/

/-- The follower, the devices and the answer after a round. -/
structure RoundEnd where
  follower : Server
  devices : Devices
  /-- `none` when no request was sent, or when the handler threw. -/
  answer : Option AppendEntriesResponse

/-- A handler that has ended. -/
def RoundEnd.ofResult
    (devices : Devices) :
    EStateM.Result Exn Server AppendEntriesResponse → RoundEnd
  | .ok rsp follower => { follower, devices, answer := some rsp }
  | .error _ follower => { follower, devices, answer := none }

/-- The handler from its block copy on. -/
def Server.copyAndFinish
    (follower : Server)
    (devices : Devices)
    (pending : PendingAppend) :
    RoundEnd :=
  match
    follower.layout.doPbaCopy pending.req.leaderPbaSrc
      pending.req.logBlockLength follower.ring.tailSlot with
  | .ok chunks =>
      .ofResult
        (devices.writePbaBatch pending.req.leaderDevIndex
          follower.raft.clusterIndex chunks)
        ((handleAppendEntriesFinish pending true).run follower)
  | .error _ =>
      .ofResult devices
        ((handleAppendEntriesFinish pending false).run follower)

/-- `handle_append_entries_request` with nothing in between. -/
def Server.serveAppend
    (follower : Server)
    (devices : Devices)
    (req : AppendEntriesRequest) :
    RoundEnd :=
  match (handleAppendEntriesRequest req).run follower with
  | .ok (.replied rsp) after =>
      { follower := after, devices, answer := some rsp }
  | .ok (.copying pending) after => after.copyAndFinish devices pending
  | .error _ after => { follower := after, devices, answer := none }

/-- `append_entries_worker` from Lock B to the answer of the follower. -/
def runRound
    (mode : ReplicationMode)
    (leader follower : Server)
    (fi : Nat)
    (devices : Devices)
    (call : AppendCall) :
    RoundEnd :=
  if call.hasEntries ∧ mode = .leaderSide then
    match
      leader.layout.doPbaCopy call.req.leaderPbaSrc call.req.logBlockLength
        call.req.startSlot with
    | .ok chunks =>
        follower.serveAppend
          (devices.writePbaBatch leader.raft.clusterIndex fi chunks)
          { call.req with dataAlreadyCopied := true }
    | .error _ => { follower, devices, answer := none }
  else
    follower.serveAppend devices call.req

/-- The first lock section of the handler goes on to the block copy. -/
def Server.copiesFor
    (follower : Server)
    (req : AppendEntriesRequest) :
    Bool :=
  match (handleAppendEntriesRequest req).run follower with
  | .ok (.copying _) _ => true
  | _ => false

/-- A handler that does not wait for a copy goes on at once. -/
def resumeAppend : AppendProgress → Section AppendProgress
  | .replied rsp => pure (.replied rsp)
  | .copying pending => do
      return .replied (← completeAppend pending)

theorem acceptAppend_copied
    {req : AppendEntriesRequest}
    (fresh : req.dataAlreadyCopied = false) :
    acceptAppend { req with dataAlreadyCopied := true } =
      acceptAppend req >>= resumeAppend := by
  unfold acceptAppend
  rw [bind_assoc]
  refine bind_congr fun server => ?_
  dsimp only
  split
  · rw [bind_assoc]
    rfl
  · split
    · rw [fresh, bind_assoc]
      rfl
    · rw [bind_assoc]
      rfl

/-- With the data already there, the handler runs its two sections as one. -/
theorem handleAppendEntriesRequest_copied
    {req : AppendEntriesRequest}
    (fresh : req.dataAlreadyCopied = false) :
    handleAppendEntriesRequest { req with dataAlreadyCopied := true } =
      handleAppendEntriesRequest req >>= resumeAppend := by
  simp only [handleAppendEntriesRequest, bind_assoc]
  refine bind_congr fun _ => bind_congr fun _ => bind_congr fun server => ?_
  by_cases refused :
      server.raft.state ≠ .follower ∨ req.term < server.raft.currentTerm
  · rw [if_pos refused, if_pos refused]
    rfl
  · rw [if_neg refused, if_neg refused]
    have same :
        prevLogConflict server { req with dataAlreadyCopied := true } =
          prevLogConflict server req :=
      rfl
    rw [same]
    cases prevLogConflict server req with
    | some rsp =>
        rfl
    | none =>
        exact acceptAppend_copied fresh

/-- A handler that waits for a copy copies to the start slot of the request. -/
def AppendProgress.CopiesTo
    (req : AppendEntriesRequest)
    (tailSlot : Nat) :
    AppendProgress → Prop
  | .replied _ => True
  | .copying pending => pending.req = req ∧ tailSlot = req.startSlot

theorem acceptAppend_copying
    (req : AppendEntriesRequest)
    (server : Server) :
    wp (acceptAppend req)
      (fun progress final => progress.CopiesTo req final.ring.tailSlot)
      (fun _ _ => True) server := by
  simp only [acceptAppend, wp_bind, wp_get, wp_ite, wp_pure, modifyRing,
    wp_modify]
  split
  · exact wp_mono (finishAppend_spec req _ server)
      (fun _ _ _ => trivial) fun _ _ _ => trivial
  · split
    · split
      · exact wp_mono (completeAppend_spec _ _)
          (fun _ _ _ => trivial) fun _ _ _ => trivial
      · exact ⟨rfl, rfl⟩
    · exact wp_mono (finishAppend_spec req _ server)
        (fun _ _ _ => trivial) fun _ _ _ => trivial

theorem handleAppendEntriesRequest_copying
    (req : AppendEntriesRequest)
    (server : Server) :
    wp (handleAppendEntriesRequest req)
      (fun progress final => progress.CopiesTo req final.ring.tailSlot)
      (fun _ _ => True) server := by
  simp only [handleAppendEntriesRequest, wp_bind, wp_discard]
  refine wp_mono (updateTerm_entries req.term server) ?_ fun _ _ _ => trivial
  intro _ middle _
  simp only [wp_modify, wp_get, wp_ite, wp_pure]
  split
  · trivial
  · split
    · trivial
    · exact acceptAppend_copying req _

section

variable {leader follower after : Server} {devices : Devices} {fi : Nat}
variable {req : AppendEntriesRequest} {pending : PendingAppend}
variable {chunks : List PbaChunk}

/-- What the handler has when it releases the lock for its copy. -/
theorem copying_spec
    (waits :
      (handleAppendEntriesRequest req).run follower =
        .ok (.copying pending) after) :
    pending.req = req ∧
      after.ring.tailSlot = req.startSlot ∧
        after.layout = follower.layout ∧
          after.raft.clusterIndex = follower.raft.clusterIndex := by
  have copies := handleAppendEntriesRequest_copying req follower
  have layout :=
    handleAppendEntriesRequest_frames layout_unaffected.toUndisturbed req
      follower
  have configuration :=
    handleAppendEntriesRequest_frames configuration_unaffected.toUndisturbed
      req follower
  unfold wp at copies
  rw [waits] at copies layout configuration
  exact ⟨copies.1, copies.2, layout,
    congrArg Configuration.clusterIndex configuration⟩

/-- The handler copies with the layout, and to the device, of its node. -/
theorem copyAndFinish_eq
    (waits :
      (handleAppendEntriesRequest req).run follower =
        .ok (.copying pending) after)
    (resolved :
      follower.layout.doPbaCopy req.leaderPbaSrc req.logBlockLength
        req.startSlot = .ok chunks) :
    after.copyAndFinish devices pending =
      .ofResult
        (devices.writePbaBatch req.leaderDevIndex
          follower.raft.clusterIndex chunks)
        ((completeAppend pending).run after) := by
  obtain ⟨rfl, slot, sameLayout, sameIndex⟩ := copying_spec waits
  unfold Server.copyAndFinish
  rw [sameLayout, slot, resolved, sameIndex]
  rfl

/-- The two ways to handle a request differ in the devices only. -/
structure HandledAlike
    (led copied : RoundEnd) : Prop where
  follower : led.follower = copied.follower
  answer : led.answer = copied.answer

theorem ofResult_devices
    (devices : Devices)
    (result : EStateM.Result Exn Server AppendEntriesResponse) :
    (RoundEnd.ofResult devices result).devices = devices := by
  cases result with
  | ok rsp final => rfl
  | error exn final => rfl

/-- A handler whose data is there leaves the devices to others. -/
theorem serveAppend_copied
    (fresh : req.dataAlreadyCopied = false)
    (there : Devices) :
    (follower.serveAppend there
      { req with dataAlreadyCopied := true }).devices = there := by
  unfold Server.serveAppend
  rw [handleAppendEntriesRequest_copied fresh, EStateM.run_bind]
  cases (handleAppendEntriesRequest req).run follower with
  | error exn after =>
      rfl
  | ok progress after =>
      cases progress with
      | replied rsp =>
          rfl
      | copying pending =>
          dsimp only [resumeAppend]
          rw [EStateM.run_bind]
          cases (completeAppend pending).run after with
          | error exn final => rfl
          | ok rsp final => rfl

/-- A handler whose data is there ends as one that copies it, if it can. -/
theorem serveAppend_alike
    (fresh : req.dataAlreadyCopied = false)
    (resolved :
      follower.copiesFor req = true →
      follower.layout.doPbaCopy req.leaderPbaSrc req.logBlockLength
        req.startSlot = .ok chunks)
    (devices there : Devices) :
    HandledAlike
        (follower.serveAppend there { req with dataAlreadyCopied := true })
        (follower.serveAppend devices req) ∧
      (follower.serveAppend devices req).devices =
        if follower.copiesFor req then
          devices.writePbaBatch req.leaderDevIndex
            follower.raft.clusterIndex chunks
        else
          devices := by
  unfold Server.serveAppend
  rw [handleAppendEntriesRequest_copied fresh, EStateM.run_bind]
  unfold Server.copiesFor at resolved ⊢
  cases first : (handleAppendEntriesRequest req).run follower with
  | error exn after =>
      exact ⟨⟨rfl, rfl⟩, rfl⟩
  | ok progress after =>
      cases progress with
      | replied rsp =>
          exact ⟨⟨rfl, rfl⟩, rfl⟩
      | copying pending =>
          rw [first] at resolved
          dsimp only [resumeAppend]
          rw [copyAndFinish_eq first (resolved rfl), ofResult_devices,
            EStateM.run_bind]
          cases (completeAppend pending).run after with
          | error exn final => exact ⟨⟨rfl, rfl⟩, rfl⟩
          | ok rsp final => exact ⟨⟨rfl, rfl⟩, rfl⟩

/-- A handler that does not come to its copy leaves the devices alone. -/
theorem serveAppend_quiet
    (fresh : req.dataAlreadyCopied = false)
    (quiet : follower.copiesFor req = false)
    (devices there : Devices) :
    HandledAlike
        (follower.serveAppend there { req with dataAlreadyCopied := true })
        (follower.serveAppend devices req) ∧
      (follower.serveAppend devices req).devices = devices := by
  have uncopied :
      follower.copiesFor req = true →
      follower.layout.doPbaCopy req.leaderPbaSrc req.logBlockLength
        req.startSlot = .ok [] := by
    simp [quiet]
  obtain ⟨alike, copied⟩ := serveAppend_alike fresh uncopied devices there
  refine ⟨alike, copied.trans ?_⟩
  rw [quiet]
  rfl

/-- A handler whose copy cannot be cut into chunks leaves the devices alone. -/
theorem serveAppend_unresolved
    {exn : CopyExn}
    (unresolved :
      follower.layout.doPbaCopy req.leaderPbaSrc req.logBlockLength
        req.startSlot = .error exn) :
    (follower.serveAppend devices req).devices = devices := by
  unfold Server.serveAppend
  cases first : (handleAppendEntriesRequest req).run follower with
  | error exn after =>
      rfl
  | ok progress after =>
      cases progress with
      | replied rsp =>
          rfl
      | copying pending =>
          obtain ⟨sameReq, slot, sameLayout, -⟩ := copying_spec first
          dsimp only
          unfold Server.copyAndFinish
          rw [sameReq, sameLayout, slot, unresolved]
          exact ofResult_devices _ _

/-- A handler that copies does not refuse afterwards. -/
theorem serveAppend_refused
    {rsp : AppendEntriesResponse}
    (resolved :
      follower.layout.doPbaCopy req.leaderPbaSrc req.logBlockLength
        req.startSlot = .ok chunks)
    (answered : (follower.serveAppend devices req).answer = some rsp)
    (refused : rsp.success = false) :
    follower.copiesFor req = false := by
  unfold Server.serveAppend at answered
  unfold Server.copiesFor
  cases first : (handleAppendEntriesRequest req).run follower with
  | error exn after =>
      rfl
  | ok progress after =>
      cases progress with
      | replied rsp =>
          rfl
      | copying pending =>
          rw [first] at answered
          dsimp only at answered
          rw [copyAndFinish_eq first resolved] at answered
          have completed := completeAppend_spec pending after
          unfold wp at completed
          cases ended : (completeAppend pending).run after with
          | error exn final =>
              rw [ended] at answered
              cases answered
          | ok rsp final =>
              rw [ended] at answered completed
              cases answered
              rw [completed.1] at refused
              cases refused

/-- A handler that refuses has left the devices alone. -/
theorem serveAppend_untouched
    {rsp : AppendEntriesResponse}
    (fresh : req.dataAlreadyCopied = false)
    (answered : (follower.serveAppend devices req).answer = some rsp)
    (refused : rsp.success = false) :
    (follower.serveAppend devices req).devices = devices := by
  cases own :
      follower.layout.doPbaCopy req.leaderPbaSrc req.logBlockLength
        req.startSlot with
  | error exn =>
      exact serveAppend_unresolved own
  | ok chunks =>
      exact (serveAppend_quiet fresh
        (serveAppend_refused own answered refused) devices devices).2

end

/-- What Lock B fills in for every request. -/
theorem builtCall_filled
    {leader : Server}
    {fi : Nat}
    {call : AppendCall}
    (built : leader.builtCall? fi = some call) :
    call.req.dataAlreadyCopied = false ∧
      call.req.leaderDevIndex = leader.raft.clusterIndex := by
  have spec :
      wp (appendEntriesSend fi)
        (fun built _ =>
          ∀ call, built = some call →
            call.req.dataAlreadyCopied = false ∧
              call.req.leaderDevIndex = leader.raft.clusterIndex)
        (fun _ _ => True) leader := by
    simp only [appendEntriesSend, wp_bind, wp_modify, wp_get, wp_ite, wp_pure]
    split
    · rintro call ⟨⟩
    · have untouched :
          ∀ next lenEntries,
            Frames Server.layout (planRound next lenEntries) :=
        planRound_frames
      refine wp_mono ((untouched _ _).ends _) ?_ fun _ _ _ => trivial
      intro plan final _
      split
      · rintro call ⟨⟩
        exact ⟨rfl, rfl⟩
      · rintro call ⟨⟩
        exact ⟨rfl, rfl⟩
  exact wp_builtCall spec built

/-- `do_pba_copy` on a node, for the batch of a request. -/
def Server.cutBatch
    (server : Server)
    (req : AppendEntriesRequest) :
    Except CopyExn (List PbaChunk) :=
  server.layout.doPbaCopy req.leaderPbaSrc req.logBlockLength req.startSlot

/--
What the two modes have in common for a batch that the leader cuts into these
chunks.
-/
structure RoundsAgree
    (leader follower : Server)
    (fi : Nat)
    (devices : Devices)
    (call : AppendCall)
    (chunks : List PbaChunk)
    (led copied : RoundEnd) : Prop where
  /-- The follower's copy, if it comes to one, must not throw. -/
  handled :
    (follower.copiesFor call.req = true →
      ∃ own, follower.cutBatch call.req = .ok own) →
    HandledAlike led copied
  slots :
    follower.copiesFor call.req = true →
    follower.cutBatch call.req = leader.cutBatch call.req →
    ∀ slot,
      call.req.startSlot ≤ slot →
      slot < call.req.startSlot + call.req.logBlockLength →
      follower.layout.slotBytes (led.devices fi) slot =
        follower.layout.slotBytes (copied.devices fi) slot
  /-- The leader copies before it knows what the follower answers. -/
  written :
    call.hasEntries = true →
    led.devices = devices.writePbaBatch leader.raft.clusterIndex fi chunks
  uncopied :
    follower.copiesFor call.req = false →
    copied.devices = devices
  refused :
    ∀ rsp,
      copied.answer = some rsp →
      rsp.success = false →
      ∀ slot,
        follower.layout.slotBytes (copied.devices fi) slot =
          follower.layout.slotBytes (devices fi) slot

/--
Whatever the layouts of the two ring files, the modes leave the follower in the
same state and with the same answer, unless the follower comes to a copy that
throws.  They differ in when the batch is copied: the follower copies it only
when it accepts new entries, the leader always.  A batch that both copy is in
the same slots afterwards if both nodes cut it alike, as nodes with ring files
that are laid out alike do.
-/
theorem modes_agree
    {leader follower : Server}
    {fi : Nat}
    {call : AppendCall}
    (devices : Devices)
    (built : leader.builtCall? fi = some call)
    (member : follower.raft.clusterIndex = fi) :
    (∀ chunks,
      leader.cutBatch call.req = .ok chunks →
      RoundsAgree leader follower fi devices call chunks
        (runRound .leaderSide leader follower fi devices call)
        (runRound .destinationSide leader follower fi devices call)) ∧
    (∀ exn,
      leader.cutBatch call.req = .error exn →
      call.hasEntries = true →
      runRound .leaderSide leader follower fi devices call =
        { follower, devices, answer := none }) ∧
    (∀ exn,
      follower.cutBatch call.req = .error exn →
      (runRound .destinationSide leader follower fi devices call).devices =
        devices) ∧
    (leader.layout.Alike follower.layout →
      follower.cutBatch call.req = leader.cutBatch call.req) := by
  obtain ⟨fresh, srcDev⟩ := builtCall_filled built
  have destination :
      runRound .destinationSide leader follower fi devices call =
        follower.serveAppend devices call.req := by
    rw [runRound, if_neg fun both => by cases both.2]
  rw [destination]
  refine ⟨?_, ?_, fun exn unresolved => serveAppend_unresolved unresolved,
    fun alike => (alike.doPbaCopy _ _ _).symm⟩
  · intro chunks resolved
    have refused :
        ∀ rsp,
          (follower.serveAppend devices call.req).answer = some rsp →
          rsp.success = false →
          ∀ slot,
            follower.layout.slotBytes
                ((follower.serveAppend devices call.req).devices fi) slot =
              follower.layout.slotBytes (devices fi) slot := by
      intro rsp answered refuses slot
      rw [serveAppend_untouched fresh answered refuses]
    have uncopied :
        follower.copiesFor call.req = false →
        (follower.serveAppend devices call.req).devices = devices :=
      fun quiet => (serveAppend_quiet fresh quiet devices devices).2
    by_cases some : call.hasEntries = true
    · have led :
          runRound .leaderSide leader follower fi devices call =
            follower.serveAppend
              (devices.writePbaBatch leader.raft.clusterIndex fi chunks)
              { call.req with dataAlreadyCopied := true } := by
        rw [Server.cutBatch] at resolved
        rw [runRound, if_pos ⟨some, rfl⟩, resolved]
      rw [led]
      refine ⟨?_, ?_, fun _ => serveAppend_copied fresh _, uncopied, refused⟩
      · intro cuts
        cases copies : follower.copiesFor call.req with
        | true =>
            obtain ⟨own, cut⟩ := cuts copies
            exact (serveAppend_alike fresh (fun _ => cut) devices _).1
        | false =>
            exact (serveAppend_quiet fresh copies devices _).1
      · intro copies same slot _ _
        rw [serveAppend_copied fresh,
          (serveAppend_alike fresh (fun _ => same.trans resolved) devices
            devices).2, copies, srcDev, member]
        rfl
    · have led :
          runRound .leaderSide leader follower fi devices call =
            follower.serveAppend devices call.req := by
        rw [runRound, if_neg fun both => some both.1]
      rw [led]
      exact ⟨fun _ => ⟨rfl, rfl⟩, fun _ _ _ _ _ => rfl,
        fun entries => absurd entries some, uncopied, refused⟩
  · intro exn unresolved some
    rw [Server.cutBatch] at unresolved
    rw [runRound, if_pos ⟨some, rfl⟩, unresolved]

/-- A ring file of two pages in one extent. -/
def oneExtent : List Extent :=
  [{ logical := 0, physical := 8192, length := 8192 }]

/-- A leader with its no-op entry and one command in slots 0 and 1. -/
def twoEntryLeader : Server where
  raft := {
    currentTerm := 1
    id := 1
    state := .leader
    log := [{}, { term := 1 }, { command := [7], term := 1 }]
    cluster :=
      [{ id := 1 }, { id := 2, nextIndex := 1 }, { id := 3, nextIndex := 1 }]
    clusterIndex := 0 }
  ring := { RingLog.configure {} 2 with
    tailLogIndex := 3
    tailSlot := 2
    logSlotMap :=
      ((∅ : SlotMap).insert 1
          { start := 0, numSlots := 1, state := .using }).insert 2
        { start := 1, numSlots := 1, state := .using } }
  io := { extents := oneExtent }

/-- A follower in some term with some entries and some ring file. -/
def secondFollower
    (term : Nat)
    (entries : List Entry)
    (extents : List Extent) :
    Server where
  raft := {
    currentTerm := term
    id := 2
    log := {} :: entries
    cluster := [{ id := 1 }, { id := 2 }, { id := 3 }]
    clusterIndex := 1 }
  ring := { RingLog.configure {} 2 with
    tailLogIndex := entries.length + 1 }
  io := { extents }

/-- The round that sends both entries. -/
def twoEntryCall : AppendCall where
  req := {
    term := 1
    leaderId := 1
    prevLogIndex := 0
    prevLogTerm := 0
    leaderCommit := 0
    leaderPbaSrc := 8704
    logBlockLength := 2
    numEntries := 2
    slotsPerEntry := 1
    startSlot := 0
    leaderDevIndex := 0
    entryMetas := [{ term := 1, cmdLen := 0 }, { term := 1, cmdLen := 1 }] }
  next := 1
  lenEntries := 2

/-- Only the first byte of slot 0 of the leader is set. -/
def markedDevices : Devices :=
  fun device address => if device = 0 ∧ address = 8704 then 1 else 0

theorem twoEntryCall_built :
    twoEntryLeader.builtCall? 1 = some twoEntryCall := by
  decide +kernel

/-- A follower that accepts the round has it in either mode. -/
theorem modes_agree_two_entries :
    (secondFollower 1 [] oneExtent).copiesFor twoEntryCall.req = true ∧
      RoundsAgree twoEntryLeader (secondFollower 1 [] oneExtent) 1
        markedDevices twoEntryCall
        [{ src := 8704, dst := 8704, nbytes := 4096 }]
        (runRound .leaderSide twoEntryLeader
          (secondFollower 1 [] oneExtent) 1 markedDevices twoEntryCall)
        (runRound .destinationSide twoEntryLeader
          (secondFollower 1 [] oneExtent) 1 markedDevices twoEntryCall) ∧
      (secondFollower 1 [] oneExtent).cutBatch twoEntryCall.req =
        twoEntryLeader.cutBatch twoEntryCall.req := by
  have member : (secondFollower 1 [] oneExtent).raft.clusterIndex = 1 := rfl
  have agree := modes_agree markedDevices twoEntryCall_built member
  exact ⟨by decide +kernel, agree.1 _ (by decide +kernel),
    agree.2.2.2 ⟨rfl, fun _ _ _ => rfl⟩⟩

/-- The rounds end alike for the follower, its answer and its ring. -/
structure SameOutcome
    (follower : Server)
    (fi : Nat)
    (devices : Devices)
    (req : AppendEntriesRequest)
    (led copied : RoundEnd) : Prop where
  log : led.follower.raft.log = copied.follower.raft.log
  tailLogIndex :
    led.follower.ring.tailLogIndex = copied.follower.ring.tailLogIndex
  tailSlot : led.follower.ring.tailSlot = copied.follower.ring.tailSlot
  commitIndex :
    led.follower.raft.commitIndex = copied.follower.raft.commitIndex
  success :
    led.answer.map AppendEntriesResponse.success =
      copied.answer.map AppendEntriesResponse.success
  slots :
    ∀ slot,
      req.startSlot ≤ slot →
      slot < req.startSlot + req.logBlockLength →
      follower.layout.slotBytes (led.devices fi) slot =
        follower.layout.slotBytes (copied.devices fi) slot
  refused :
    ∀ rsp,
      led.answer = some rsp →
      rsp.success = false →
      ∀ slot < follower.ring.ringSlots,
        follower.layout.slotBytes (led.devices fi) slot =
            follower.layout.slotBytes (devices fi) slot ∧
          follower.layout.slotBytes (copied.devices fi) slot =
            follower.layout.slotBytes (devices fi) slot

/-- The two modes run on the same states end alike. -/
def ModesEndAlike (follower : Server) : Prop :=
  SameOutcome follower 1 markedDevices twoEntryCall.req
    (runRound .leaderSide twoEntryLeader follower 1 markedDevices
      twoEntryCall)
    (runRound .destinationSide twoEntryLeader follower 1 markedDevices
      twoEntryCall)

/--
The leader has overwritten the ring of a follower that refuses the round, or
holds it already, and writes to its own addresses on the device of a follower
whose file lies elsewhere.
-/
theorem modes_differ :
    twoEntryLeader.builtCall? 1 = some twoEntryCall ∧
      ¬ ModesEndAlike (secondFollower 2 [] oneExtent) ∧
        ¬ ModesEndAlike
            (secondFollower 1
              [{ term := 1 }, { term := 1, ringSlot := 1, cmdLen := 1 }]
              oneExtent) ∧
          ¬ ModesEndAlike
              (secondFollower 1 []
                [{ logical := 0, physical := 65536, length := 8192 }]) := by
  have differs :
      ∀ follower,
        ((follower.layout.slotBytes
            ((runRound .leaderSide twoEntryLeader follower 1 markedDevices
              twoEntryCall).devices 1) 0).head? ≠
          (follower.layout.slotBytes
            ((runRound .destinationSide twoEntryLeader follower 1
              markedDevices twoEntryCall).devices 1) 0).head?) →
        ¬ ModesEndAlike follower :=
    fun follower different alike =>
      different (congrArg List.head?
        (alike.slots 0 (Nat.zero_le 0) (by decide)))
  refine ⟨twoEntryCall_built, differs _ ?_, differs _ ?_, differs _ ?_⟩
  · decide +kernel
  · decide +kernel
  · decide +kernel

end NvmeofRaft
