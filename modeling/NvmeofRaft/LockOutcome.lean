import NvmeofRaft.DurableRuns
import NvmeofRaft.FailedCopy
import NvmeofRaft.LockRelease
import NvmeofRaft.Redelivery

namespace NvmeofRaft

/-!
# When `mu` stays locked

`finalize` stands in front of every return of the append handler, but
`persist_circular` throws past it, in `update_term` and at both successful
ends.  In the worker `leader_pba_for_range` throws past the unlock of Lock B.
-/

/-- The next header is needed, and its write or its sync fails. -/
def Server.HeaderFails (server : Server) : Prop :=
  needsHeader server = true ∧
    (server.io.outcomes.writes.headD .done ≠ .done ∨
      server.io.outcomes.syncs.headD true = false)

/--
The header call throws exactly when the write or the sync of a due header
fails.
-/
theorem persistHeader_outcome
    (server : Server) :
    wp (persistCircular false 0) (fun _ _ => ¬ server.HeaderFails)
      (fun _ _ => server.HeaderFails) server := by
  cases needed : needsHeader server with
  | false =>
      rw [wp_persistHeader_settled needed]
      rintro ⟨header, -⟩
      rw [needed] at header
      cases header
  | true =>
      simp only [persistCircular, persistSync, wp_bind, wp_get, wp_ite,
        wp_modify, needed, Bool.false_eq_true, false_and, if_false, if_true,
        persistHeader, writeAtFile, nextWriteOutcome, wp_pure]
      cases write : server.io.outcomes.writes.headD .done with
      | done =>
          simp only [wp_modify, fdatasync, nextSyncOutcome, wp_bind, wp_get,
            wp_pure, wp_ite, wp_throw]
          split
          · rename_i synced
            rintro ⟨-, torn | unsynced⟩
            · exact torn write
            · exact Bool.noConfusion (synced.symm.trans unsynced)
          · rename_i unsynced
            exact ⟨needed, .inr (Bool.eq_false_iff.mpr unsynced)⟩
      | fails landed =>
          simp only [wp_bind, wp_modify, wp_throw]
          refine ⟨needed, .inl ?_⟩
          rw [write]
          exact WriteOutcome.noConfusion

theorem buildLog_headerFails
    (server : Server)
    (req : AppendEntriesRequest)
    (newTail skipEntries : Nat) :
    (server.buildLog req newTail skipEntries).HeaderFails ↔
      server.HeaderFails := by
  have needed :
      needsHeader (server.buildLog req newTail skipEntries) = true ↔
        needsHeader server = true := by
    rw [← Bool.not_eq_false, ← Bool.not_eq_false, needsHeader_eq_false_iff,
      needsHeader_eq_false_iff, buildLog_calm]
  have io : (server.buildLog req newTail skipEntries).io = server.io :=
    congrArg Ground.io
      (ground_of_besidesLog (buildLog_besidesLog server req _ _))
  rw [Server.HeaderFails, Server.HeaderFails, needed, io]

/-- The end of an append throws exactly when its header fails. -/
theorem finishAppend_outcome
    (req : AppendEntriesRequest)
    (rspTerm : Nat)
    (server : Server) :
    wp (finishAppend req rspTerm) (fun _ _ => ¬ server.HeaderFails)
      (fun _ _ => server.HeaderFails) server := by
  simp only [finishAppend, wp_bind, wp_modify, wp_pure]
  exact persistHeader_outcome _

/-- Taking up entries throws exactly when the header fails. -/
theorem completeAppend_outcome
    (pending : PendingAppend)
    (server : Server) :
    wp (completeAppend pending) (fun _ _ => ¬ server.HeaderFails)
      (fun _ _ => server.HeaderFails) server := by
  rw [← buildLog_headerFails server pending.req pending.newTail
    pending.skipEntries]
  simp only [completeAppend, wp_bind, wp_modify]
  exact finishAppend_outcome _ _ _

/-- What the handler does behind its checks. -/
inductive AppendRoute where
  | refuses
  | persists
  | copies
  deriving Repr, DecidableEq

/-- The way of the handler through a server that has met the request. -/
def Server.appendRoute
    (server : Server)
    (req : AppendEntriesRequest) :
    AppendRoute :=
  if server.raft.state ≠ .follower ∨
      req.term < server.raft.currentTerm then
    .refuses
  else if (prevLogConflict server req).isSome then
    .refuses
  else if req.prevLogIndex + 1 < server.ring.tailLogIndex ∧
      req.numEntries ≤ server.ring.tailLogIndex - (req.prevLogIndex + 1) then
    .persists
  else if 0 < req.numEntries ∧ req.leaderPbaSrc ≠ 0 then
    if req.dataAlreadyCopied then .persists else .copies
  else
    .persists

/--
The handler writes a header and fails: in `update_term`, at an end it reaches
under its first lock, or behind a copy, in the server that the second lock
finds.
-/
def Server.AppendThrows
    (server relocked : Server)
    (copied : Bool)
    (req : AppendEntriesRequest) : Prop :=
  (server.raft.currentTerm < req.term ∧
      (server.demote req.term).HeaderFails) ∨
    (¬ server.raft.currentTerm < req.term ∧
      (server.meet req).appendRoute req = .persists ∧ server.HeaderFails) ∨
    ((server.meet req).appendRoute req = .copies ∧ copied = true ∧
      relocked.HeaderFails)

/-- The same behind `update_term`. -/
def Server.AcceptThrows
    (server relocked : Server)
    (copied : Bool)
    (req : AppendEntriesRequest) : Prop :=
  match server.appendRoute req with
  | .refuses => False
  | .persists => server.HeaderFails
  | .copies => copied = true ∧ relocked.HeaderFails

section

variable
  {server relocked : Server}
  {copied : Bool}
  {req : AppendEntriesRequest}

theorem handleAppendEntriesFinish_outcome
    (pending : PendingAppend)
    (server : Server)
    (copied : Bool) :
    wp (handleAppendEntriesFinish pending copied)
      (fun _ _ => ¬ (copied = true ∧ server.HeaderFails))
      (fun _ _ => copied = true ∧ server.HeaderFails) server := by
  cases copied with
  | true =>
      simp only [handleAppendEntriesFinish, if_true, true_and]
      exact completeAppend_outcome pending server
  | false =>
      simp [handleAppendEntriesFinish]

theorem acceptAppend_outcome
    (role :
      ¬ (server.raft.state ≠ .follower ∨ req.term < server.raft.currentTerm))
    (agreed : prevLogConflict server req = none) :
    wp (acceptAppend req)
      (fun progress _ =>
        match progress with
        | .replied _ => ¬ server.AcceptThrows relocked copied req
        | .copying pending =>
            wp (handleAppendEntriesFinish pending copied)
              (fun _ _ => ¬ server.AcceptThrows relocked copied req)
              (fun _ _ => server.AcceptThrows relocked copied req) relocked)
      (fun _ _ => server.AcceptThrows relocked copied req) server := by
  unfold Server.AcceptThrows Server.appendRoute
  rw [if_neg role, agreed]
  simp only [acceptAppend, modifyRing, wp_bind, wp_modify, wp_get, wp_ite,
    wp_pure, Option.isSome_none, Bool.false_eq_true, if_false]
  split_ifs with known carries there
  · exact finishAppend_outcome req _ server
  · exact completeAppend_outcome _ { server with
      ring := { server.ring with tailSlot := req.startSlot } }
  · exact handleAppendEntriesFinish_outcome _ relocked copied
  · exact finishAppend_outcome req _ server

/-- The handler behind `update_term`. -/
theorem handleAppendApart_outcome
    (met :
      wp (updateTerm req.term)
        (fun _ middle =>
          ((middle.stepDown req).AcceptThrows relocked copied req ↔
            server.AppendThrows relocked copied req))
        (fun _ _ => server.AppendThrows relocked copied req) server) :
    wp (handleAppendApart relocked copied req)
      (fun _ _ => ¬ server.AppendThrows relocked copied req)
      (fun _ _ => server.AppendThrows relocked copied req) server := by
  simp only [handleAppendApart, handleAppendEntriesRequest, wp_bind,
    wp_discard, wp_modify, wp_get, wp_ite, wp_pure]
  refine wp_mono met ?_ fun _ _ failed => failed
  intro _ middle same
  by_cases role :
      (middle.stepDown req).raft.state ≠ .follower ∨
        req.term < (middle.stepDown req).raft.currentTerm
  · rw [if_pos role, ← same]
    simp [Server.AcceptThrows, Server.appendRoute, role]
  rw [if_neg role]
  cases conflict : prevLogConflict (middle.stepDown req) req with
  | some rsp =>
      simp only [wp_pure, ← same]
      simp [Server.AcceptThrows, Server.appendRoute, conflict]
  | none =>
      have ends :=
        @acceptAppend_outcome (middle.stepDown req) relocked copied req role
          conflict
      simp only [same] at ends
      refine wp_mono ends ?_ fun _ _ failed => failed
      intro progress final goesOn
      cases progress with
      | replied rsp => exact goesOn
      | copying pending => exact goesOn

theorem stepDown_headerFails
    (server : Server)
    (req : AppendEntriesRequest) :
    (server.stepDown req).HeaderFails ↔ server.HeaderFails := by
  unfold Server.HeaderFails
  rw [stepDown_header]
  unfold Server.stepDown
  split <;> rfl

/-- The way does not go by the file or by what is cached of its header. -/
theorem appendRoute_besidesFile
    (server : Server)
    (req : AppendEntriesRequest) :
    server.besidesFile.appendRoute req = server.appendRoute req := by
  have conflict :
      (prevLogConflict server.besidesFile req).isNone =
        (prevLogConflict server req).isNone := by
    rw [prevLogConflict_isNone, prevLogConflict_isNone]
    rfl
  have refused :
      (prevLogConflict server.besidesFile req).isSome =
        (prevLogConflict server req).isSome := by
    rw [← Option.not_isNone, ← Option.not_isNone, conflict]
  unfold Server.appendRoute
  rw [refused]
  rfl

theorem updateTerm_outcome
    (server relocked : Server)
    (copied : Bool)
    (req : AppendEntriesRequest) :
    wp (updateTerm req.term)
      (fun _ middle =>
        ((middle.stepDown req).AcceptThrows relocked copied req ↔
          server.AppendThrows relocked copied req))
      (fun _ _ => server.AppendThrows relocked copied req) server := by
  have meets := updateTerm_meets req server
  simp only [updateTerm, wp_bind, wp_get, wp_ite, wp_pure, wp_modify] at meets ⊢
  by_cases higher : server.raft.currentTerm < req.term
  · rw [if_pos higher] at meets ⊢
    refine wp_mono (wp_and meets (wp_and (persistHeader_outcome _)
      (persistHeader_settles _))) ?_ ?_
    · rintro _ middle ⟨met, written, settled⟩
      have route :
          (middle.stepDown req).appendRoute req =
            (server.meet req).appendRoute req := by
        rw [← appendRoute_besidesFile, met, appendRoute_besidesFile]
      have calm : ¬ (middle.stepDown req).HeaderFails := by
        rw [stepDown_headerFails]
        rintro ⟨needed, -⟩
        exact Bool.noConfusion (settled.symm.trans needed)
      unfold Server.AcceptThrows Server.AppendThrows
      rw [route]
      cases (server.meet req).appendRoute req <;> simp [higher, written, calm]
    · rintro _ final ⟨-, failed, -⟩
      exact .inl ⟨higher, failed⟩
  · rw [if_neg higher] at meets ⊢
    have met : server.meet req = server.stepDown req := by
      rw [Server.meet, if_neg higher]
    unfold Server.AcceptThrows Server.AppendThrows
    rw [met]
    cases (server.stepDown req).appendRoute req <;>
      simp [higher, stepDown_headerFails]

end

/-- The slots whose device address a round looks up: the first, how many. -/
def Server.roundSlots
    (server : Server)
    (next lenEntries : Nat) :
    Option (Nat × Nat) :=
  if lenEntries = 0 then
    none
  else
    match server.startSlotOf next with
    | none => none
    | some startSlot =>
        let round := server.roundEntries next lenEntries startSlot
        if round.1 = 0 ∨ round.2 = 0 then none else some (startSlot, round.2)

/-- The same for the round that Lock B plans for a member. -/
def Server.lockBSlots
    (server : Server)
    (fi : Nat) :
    Option (Nat × Nat) :=
  let server := server.clampNext fi
  let next := (server.member fi).nextIndex
  let last := server.lastLogIndex
  if next ≤ last ∧ (server.member fi).inflight then
    none
  else
    server.roundSlots next
      (if next ≤ last then min (last + 1 - next) server.maxAeBatch else 0)

/-- No extent covers the first slot, or the file has a hole there. -/
def Server.Unresolved
    (server : Server)
    (slots : Nat × Nat) : Prop :=
  ∀ segment,
    lookup server.io.extents (slotOffset slots.1)
        (alignUp (slots.2 * sectorSize) pageSize) = .ok segment →
      segment.pba = 0

/-- The worker looks up an address that the ring file does not have. -/
def Server.RoundThrows
    (server : Server)
    (fi : Nat) : Prop :=
  ∃ slots, server.lockBSlots fi = some slots ∧ server.Unresolved slots

/-- Resolving a range throws exactly when it has no address. -/
theorem leaderPbaForRange_outcome
    (startSlot totalSlots : Nat)
    (server : Server) :
    wp (leaderPbaForRange startSlot totalSlots)
      (fun _ _ => totalSlots = 0 ∨ ¬ server.Unresolved (startSlot, totalSlots))
      (fun _ _ => totalSlots ≠ 0 ∧ server.Unresolved (startSlot, totalSlots))
      server := by
  simp only [leaderPbaForRange, wp_ite, wp_pure, wp_bind, getPba, wp_get]
  split
  · rename_i zero
    exact .inl zero
  · rename_i some
    unfold Server.Unresolved
    dsimp only
    cases found :
        lookup server.io.extents (slotOffset startSlot)
          (alignUp (totalSlots * sectorSize) pageSize) with
    | error exn =>
        refine ⟨some, ?_⟩
        intro segment never
        cases never
    | ok segment =>
        simp only [wp_pure, wp_throw]
        have address :
            (∀ other,
              (Except.ok segment : Except Exn PbaSegment) = .ok other →
                other.pba = 0) ↔ segment.pba = 0 := by
          constructor
          · intro holes
            exact holes segment rfl
          · intro hole other same
            cases same
            exact hole
        rw [address]
        split_ifs with hole short
        · exact ⟨some, hole⟩
        · exact .inr hole
        · exact .inr hole

/-- Planning throws exactly when its range has no address. -/
theorem planRound_outcome
    (next lenEntries : Nat)
    (server : Server) :
    wp (planRound next lenEntries)
      (fun _ _ =>
        ¬ ∃ slots, server.roundSlots next lenEntries = some slots ∧
          server.Unresolved slots)
      (fun _ _ =>
        ∃ slots, server.roundSlots next lenEntries = some slots ∧
          server.Unresolved slots) server := by
  unfold Server.roundSlots
  simp only [planRound, wp_bind, wp_get, wp_ite, wp_pure]
  by_cases nothing : lenEntries = 0
  · rw [if_pos nothing]
    simp [nothing]
  rw [if_neg nothing]
  cases slot : server.startSlotOf next with
  | none =>
      simp [nothing]
  | some startSlot =>
      simp only [wp_ite, wp_pure, wp_bind, nothing, if_false]
      by_cases empty : (server.roundEntries next lenEntries startSlot).1 = 0
      · rw [if_pos empty, if_pos (.inl empty)]
        simp
      rw [if_neg empty]
      refine wp_mono (leaderPbaForRange_outcome startSlot _ server) ?_ ?_
      · rintro _ _ (zero | resolved)
        · rw [if_pos (.inr zero)]
          simp
        · rintro ⟨slots, planned, holes⟩
          split at planned
          · cases planned
          · cases planned
            exact resolved holes
      · rintro _ _ ⟨some, holes⟩
        rw [if_neg (not_or.mpr ⟨empty, some⟩)]
        exact ⟨_, rfl, holes⟩

/-- The worker throws exactly when its planning does. -/
theorem appendEntriesApart_outcome
    (server relocked : Server)
    (copied : Bool)
    (fi : Nat)
    (answer : Option AppendEntriesResponse) :
    wp (appendEntriesApart relocked copied fi answer)
      (fun _ _ => ¬ server.RoundThrows fi) (fun _ _ => server.RoundThrows fi)
      server := by
  unfold Server.RoundThrows Server.lockBSlots
  simp only [appendEntriesApart, appendEntriesSend, appendEntriesReply,
    wp_bind, wp_modify, wp_get, wp_ite, wp_pure, wp_set]
  by_cases busy :
      ((server.clampNext fi).member fi).nextIndex ≤
          (server.clampNext fi).lastLogIndex ∧
        ((server.clampNext fi).member fi).inflight = true
  · simp [busy]
  rw [if_neg busy, if_neg busy]
  refine wp_mono (planRound_outcome _ _ (server.clampNext fi)) ?_ ?_
  · intro plan middle resolved
    by_cases entries : 0 < plan.lenEntries
    · rw [if_pos entries]
      exact resolved
    · rw [if_neg entries]
      exact resolved
  · intro _ _ unresolved
    exact unresolved

/--
The handler and the worker end without `mu` exactly when nothing throws between
their locks: no header they write fails, and the address they look up is there.
-/
theorem lock_released_iff
    (server relocked : Server)
    (copy : Except Exn Unit)
    (state : Server) :
    (∀ req,
      Released (handleAppendEntriesLocked server relocked copy req) state ↔
        ¬ server.AppendThrows relocked copy.isOk req) ∧
      ∀ fi answer,
        Released (appendEntriesWorkerLocked server relocked copy fi answer)
            state ↔
          ¬ server.RoundThrows fi := by
  constructor
  · intro req
    exact (handleAppendEntriesLocked_around server relocked copy
      req).released_iff (handleAppendApart_outcome
        (updateTerm_outcome server relocked copy.isOk req)) state
  · intro fi answer
    exact (appendEntriesWorkerLocked_around server relocked copy fi
      answer).released_iff
        (appendEntriesApart_outcome server relocked copy.isOk fi answer) state

/-- A follower whose next header write fails. -/
def tornFollower : Server where
  raft := {
    id := 1
    log := [{}]
    cluster := [{ id := 1 }, { id := 2 }]
    clusterIndex := 0
  }
  io := { outcomes := { writes := [.fails 0] } }

/-- A heartbeat of a higher term. -/
def laterHeartbeat : AppendEntriesRequest where
  term := 1
  leaderId := 2
  prevLogIndex := 0
  prevLogTerm := 0
  leaderCommit := 0
  leaderPbaSrc := 0
  logBlockLength := 0
  numEntries := 0
  slotsPerEntry := 0
  startSlot := 0
  leaderDevIndex := 1
  entryMetas := []

/-- A leader with one entry to send, in a ring file without an extent. -/
def unmappedLeader : Server where
  raft := {
    id := 1
    currentTerm := 1
    state := .leader
    log := [{}, { term := 1 }]
    cluster := [{ id := 1 }, { id := 2 }]
    clusterIndex := 0
  }
  ring := {
    tailLogIndex := 1
    tailSlot := 1
    logSlotMap := AList.insert 0 ⟨0, 1, .using⟩ ∅
  }

/-- The handler and the worker both end with `mu` locked. -/
theorem lock_stays_held :
    ¬ Released
        (handleAppendEntriesLocked tornFollower tornFollower (.ok ())
          laterHeartbeat) tornFollower ∧
      ¬ Released
        (appendEntriesWorkerLocked unmappedLeader unmappedLeader (.ok ()) 1
          none) unmappedLeader := by
  unfold Released
  constructor
  · decide
  · decide

end NvmeofRaft
