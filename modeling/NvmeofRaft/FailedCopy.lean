import NvmeofRaft.AppendAnswer
import NvmeofRaft.BlockCopy

namespace NvmeofRaft

/-!
# A failed block copy

`do_pba_copy` throws without a client, when a chunk cannot be resolved and
when the block copy service fails.  The handler catches the exception, locks
`mu` again and answers without success; the next round sends the batch once
more.  What it has changed by then is what it changed in front of the copy.
-/

/-- Why `do_pba_copy` throws. -/
inductive CopyFailure where
  | notConfigured
  | chunk (exn : CopyExn)
  | service
  deriving Repr, DecidableEq

/--
`do_pba_copy` with the call of the service, which is `none` without a block
copy client and says otherwise whether the call succeeds.
-/
def RingLayout.performPbaCopy
    (layout : RingLayout)
    (service : Option Bool)
    (leaderPbaSrc logBlockLength dstSlot : Nat) :
    Except CopyFailure Unit :=
  if leaderPbaSrc = 0 ∨ logBlockLength = 0 then
    .ok ()
  else
    match service with
    | none => .error .notConfigured
    | some succeeds =>
        match layout.doPbaCopy leaderPbaSrc logBlockLength dstSlot with
        | .error exn => .error (.chunk exn)
        | .ok _ => if succeeds then .ok () else .error .service

/-- The copy that a handler makes between its two sections. -/
def Server.copyBatch
    (server : Server)
    (service : Option Bool)
    (req : AppendEntriesRequest) :
    Except CopyFailure Unit :=
  server.layout.performPbaCopy service req.leaderPbaSrc req.logBlockLength
    server.ring.tailSlot

/-- `handle_append_entries_request` with nothing in between its sections. -/
def handleAppendSerially
    (service : Option Bool)
    (req : AppendEntriesRequest) :
    Section AppendEntriesResponse := do
  match ← handleAppendEntriesRequest req with
  | .replied rsp => return rsp
  | .copying pending =>
      let server ← get
      match server.copyBatch service pending.req with
      | .ok _ => handleAppendEntriesFinish pending true
      | .error _ => handleAppendEntriesFinish pending false

/-- The handler gets to the copy, and the copy throws. -/
def Server.CopyThrows
    (server : Server)
    (service : Option Bool)
    (req : AppendEntriesRequest) : Prop :=
  ∃ pending middle failure,
    (handleAppendEntriesRequest req).run server =
        .ok (.copying pending) middle ∧
      middle.copyBatch service pending.req = .error failure

/-- The term, vote and role with which the handler goes on. -/
def Server.meet
    (server : Server)
    (req : AppendEntriesRequest) :
    Server :=
  (if server.raft.currentTerm < req.term then
    server.demote req.term
  else
    server).stepDown req

/-- Set the tail slot. -/
def Server.withTailSlot
    (server : Server)
    (tailSlot : Nat) :
    Server :=
  { server with ring := { server.ring with tailSlot } }

theorem stepDown_besidesFile
    (server : Server)
    (req : AppendEntriesRequest) :
    (server.stepDown req).besidesFile = server.besidesFile.stepDown req := by
  have sameRaft : server.besidesFile.raft = server.raft := rfl
  unfold Server.stepDown
  rw [sameRaft]
  split
  · rfl
  · rfl

/-- Beside its file the server meets the request's term. -/
theorem updateTerm_meets
    (req : AppendEntriesRequest)
    (server : Server) :
    wp (updateTerm req.term)
      (fun _ middle =>
        (middle.stepDown req).besidesFile = (server.meet req).besidesFile)
      (fun _ _ => True) server := by
  simp only [updateTerm, wp_bind, wp_get, wp_ite, wp_pure, wp_modify]
  unfold Server.meet
  split
  · refine wp_mono (persistHeaderOnly_besidesFile.ends _)
      (fun _ final same => ?_) fun _ _ _ => trivial
    rw [stepDown_besidesFile, same, stepDown_besidesFile]
  · rfl

/-- A section that ends in front of the copy has set the tail slot. -/
theorem handleAppendEntriesRequest_syncsTailSlot
    (req : AppendEntriesRequest)
    (server : Server) :
    wp (handleAppendEntriesRequest req)
      (fun progress middle =>
        ∀ pending, progress = .copying pending →
          middle.besidesFile =
            ((server.meet req).withTailSlot req.startSlot).besidesFile)
      (fun _ _ => True) server := by
  simp only [handleAppendEntriesRequest, wp_bind, wp_discard, wp_modify,
    wp_get, wp_ite, wp_pure]
  refine wp_mono (updateTerm_meets req server) (fun _ middle met => ?_)
    fun _ _ _ => trivial
  split
  · rintro pending ⟨⟩
  · cases prevLogConflict (middle.stepDown req) req with
    | some rsp =>
        rintro pending ⟨⟩
    | none =>
        simp only [acceptAppend, wp_bind, wp_get, wp_ite, wp_pure,
          modifyRing, wp_modify]
        split_ifs
        · exact wp_of_forall fun _ _ _ never => never.elim
        · exact wp_of_forall fun _ _ _ never => never.elim
        · rintro pending -
          exact congrArg (·.withTailSlot req.startSlot) met
        · exact wp_of_forall fun _ _ _ never => never.elim

/-- The follower is as it was, but for the term, the vote and the role. -/
structure Server.UntouchedBy
    (before : Server)
    (req : AppendEntriesRequest)
    (after : Server) : Prop where
  log : after.raft.log = before.raft.log
  tailLogIndex : after.ring.tailLogIndex = before.ring.tailLogIndex
  tailSlot : after.ring.tailSlot = before.ring.tailSlot
  commitIndex : after.raft.commitIndex = before.raft.commitIndex
  logSlotMap : after.ring.logSlotMap = before.ring.logSlotMap
  lastApplied : after.raft.lastApplied = before.raft.lastApplied
  rest : after.besidesFile = (before.meet req).besidesFile

/-- Meeting a request changes the term, the vote and the role. -/
theorem meet_keeps
    (server : Server)
    (req : AppendEntriesRequest) :
    (server.meet req).raft.log = server.raft.log ∧
      (server.meet req).raft.commitIndex = server.raft.commitIndex ∧
        (server.meet req).raft.lastApplied = server.raft.lastApplied ∧
          (server.meet req).ring = server.ring := by
  unfold Server.meet Server.stepDown
  split_ifs
  all_goals exact ⟨rfl, rfl, rfl, rfl⟩

/-- A follower that is untouched but for its tail slot. -/
theorem untouchedBy_iff
    {before after : Server}
    {req : AppendEntriesRequest}
    (ends :
      after.besidesFile =
        ((before.meet req).withTailSlot req.startSlot).besidesFile) :
    before.UntouchedBy req after ↔
      req.startSlot = before.ring.tailSlot := by
  obtain ⟨log, commitIndex, lastApplied, ring⟩ := meet_keeps before req
  have tail :
      (before.meet req).ring.tailLogIndex = before.ring.tailLogIndex :=
    congrArg RingLog.tailLogIndex ring
  have slots : (before.meet req).ring.logSlotMap = before.ring.logSlotMap :=
    congrArg RingLog.logSlotMap ring
  have slot : after.ring.tailSlot = req.startSlot :=
    congrArg (fun server : Server => server.ring.tailSlot) ends
  constructor
  · intro untouched
    exact slot.symm.trans untouched.tailSlot
  · intro same
    have sameRing : (before.meet req).withTailSlot req.startSlot =
        before.meet req := by
      rw [same, ← ring]
      rfl
    rw [sameRing] at ends
    exact {
      log :=
        (congrArg (fun server : Server => server.raft.log) ends).trans log
      tailLogIndex :=
        (congrArg (fun server : Server => server.ring.tailLogIndex)
          ends).trans tail
      tailSlot := slot.trans same
      commitIndex :=
        (congrArg (fun server : Server => server.raft.commitIndex)
          ends).trans commitIndex
      logSlotMap :=
        (congrArg (fun server : Server => server.ring.logSlotMap)
          ends).trans slots
      lastApplied :=
        (congrArg (fun server : Server => server.raft.lastApplied)
          ends).trans lastApplied
      rest := ends }

/-- A handler whose copy throws is over with an answer without success. -/
theorem handleAppendSerially_failed
    {server : Server}
    {service : Option Bool}
    {req : AppendEntriesRequest}
    (throws : server.CopyThrows service req) :
    ∃ rsp after,
      (handleAppendSerially service req).run server = .ok rsp after ∧
        rsp.success = false ∧
          after.besidesFile =
            ((server.meet req).withTailSlot req.startSlot).besidesFile := by
  obtain ⟨pending, middle, failure, ran, fails⟩ := throws
  have ends := handleAppendEntriesRequest_syncsTailSlot req server
  unfold wp at ends
  rw [ran] at ends
  refine ⟨{ term := pending.rspTerm }, middle, ?_, rfl, ends pending rfl⟩
  rw [handleAppendSerially, EStateM.run_bind, ran]
  show EStateM.run (match middle.copyBatch service pending.req with
    | .ok _ => handleAppendEntriesFinish pending true
    | .error _ => handleAppendEntriesFinish pending false) middle = _
  rw [fails]
  rfl

/--
A block copy that fails leaves the follower as it was exactly when the batch
starts at the follower's own tail slot: over every follower, every request and
every way for the copy to throw, with nothing in between.  The answer is
without success in every case.
-/
theorem failed_copy_untouched_iff
    {server : Server}
    {service : Option Bool}
    {req : AppendEntriesRequest}
    (throws : server.CopyThrows service req) :
    (∃ rsp after,
      (handleAppendSerially service req).run server = .ok rsp after ∧
        rsp.success = false ∧ server.UntouchedBy req after) ↔
      req.startSlot = server.ring.tailSlot := by
  obtain ⟨rsp, after, ran, refused, ends⟩ := handleAppendSerially_failed throws
  constructor
  · rintro ⟨rsp', after', ran', -, untouched⟩
    rw [ran] at ran'
    cases ran'
    exact (untouchedBy_iff ends).mp untouched
  · intro same
    exact ⟨rsp, after, ran, refused, (untouchedBy_iff ends).mpr same⟩

/-- A batch of two entries, of which `staleFollower` has the first one. -/
def overlappingBatch
    (startSlot : Nat) :
    AppendEntriesRequest where
  term := 2
  leaderId := 1
  prevLogIndex := 1
  prevLogTerm := 1
  leaderCommit := 0
  leaderPbaSrc := 9216
  logBlockLength := 2
  numEntries := 2
  slotsPerEntry := 1
  startSlot
  leaderDevIndex := 0
  entryMetas := [{ term := 1, cmdLen := 0 }, { term := 2, cmdLen := 0 }]

/-- A service that fails makes the copy of a batch throw. -/
theorem copyBatch_refused
    (server : Server)
    {req : AppendEntriesRequest}
    (source : req.leaderPbaSrc ≠ 0)
    (blocks : req.logBlockLength ≠ 0) :
    ∃ failure, server.copyBatch (some false) req = .error failure := by
  have copies : ¬ (req.leaderPbaSrc = 0 ∨ req.logBlockLength = 0) :=
    not_or.mpr ⟨source, blocks⟩
  rw [Server.copyBatch, RingLayout.performPbaCopy, if_neg copies]
  cases server.layout.doPbaCopy req.leaderPbaSrc req.logBlockLength
      server.ring.tailSlot with
  | error exn =>
      exact ⟨_, rfl⟩
  | ok chunks =>
      exact ⟨_, rfl⟩

theorem overlappingBatch_throws
    (startSlot : Nat) :
    staleFollower.CopyThrows (some false) (overlappingBatch startSlot) := by
  have source : (overlappingBatch startSlot).leaderPbaSrc ≠ 0 :=
    Nat.succ_ne_zero 9215
  have blocks : (overlappingBatch startSlot).logBlockLength ≠ 0 :=
    Nat.succ_ne_zero 1
  obtain ⟨failure, fails⟩ :=
    copyBatch_refused (staleFollower.withTailSlot startSlot) source blocks
  refine ⟨{
    req := overlappingBatch startSlot
    rspTerm := 2
    newTail := 2
    skipEntries := 1 }, staleFollower.withTailSlot startSlot, failure, ?_,
    fails⟩
  rfl

/-- A batch at the follower's own tail slot is retried from the same state. -/
theorem failed_copy_at_tail_untouched :
    staleFollower.CopyThrows (some false) (overlappingBatch 2) ∧
      ∃ rsp after,
        (handleAppendSerially (some false) (overlappingBatch 2)).run
            staleFollower = .ok rsp after ∧
          rsp.success = false ∧
            staleFollower.UntouchedBy (overlappingBatch 2) after :=
  ⟨overlappingBatch_throws 2,
    (failed_copy_untouched_iff (overlappingBatch_throws 2)).mpr rfl⟩

/--
The first entry of the batch is in slot 1 and in the follower's log; after the
failed copy the tail slot points to it.
-/
theorem failed_copy_moves_tail_back :
    staleFollower.CopyThrows (some false) (overlappingBatch 1) ∧
      staleFollower.ring.tailSlot = 2 ∧
        ∃ rsp after,
          (handleAppendSerially (some false) (overlappingBatch 1)).run
              staleFollower = .ok rsp after ∧
            after.ring.tailSlot = 1 ∧
              ¬ staleFollower.UntouchedBy (overlappingBatch 1) after := by
  refine ⟨overlappingBatch_throws 1, rfl, ?_⟩
  obtain ⟨rsp, after, ran, -, ends⟩ :=
    handleAppendSerially_failed (overlappingBatch_throws 1)
  refine ⟨rsp, after, ran, ?_, fun untouched => ?_⟩
  · exact congrArg (fun server : Server => server.ring.tailSlot) ends
  · have same := (untouchedBy_iff ends).mp untouched
    revert same
    decide

end NvmeofRaft
