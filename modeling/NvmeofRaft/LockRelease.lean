import NvmeofRaft.HeldLock
import NvmeofRaft.NodeStep

namespace NvmeofRaft

/-!
# The release of `mu`

`handle_append_entries_request` and `append_entries_worker` with every `lock`
and `unlock` of `Server::mu` where the source has it.  Each exit unlocks by
hand; an exception of the code in between passes the unlocks by.  An execution
is looked at from the moment it gets the lock.  What the second lock of an
execution finds is an input, as are the ends of `do_pba_copy`, of the I/O calls
and of the request that a worker sends.
-/

/-- Code that locks `mu` by hand. -/
abbrev LockedSection := EStateM (GuardedExn Exn) (Guarded Server)

/-- `do_pba_copy`, which is called without the lock. -/
def callPbaCopy (copy : Except Exn Unit) : LockedSection Unit :=
  match copy with
  | .ok _ => pure ()
  | .error exn => throw (.threw exn)

/-- The `try` around `do_pba_copy`: whether it threw. -/
def pbaCopyFails (copy : Except Exn Unit) : LockedSection Bool :=
  tryCatch (do callPbaCopy copy; return false) fun _ => return true

/-- The `finalize` closure: unlock in front of a return. -/
def finalize (rsp : AppendEntriesResponse) :
    LockedSection AppendEntriesResponse := do
  unlockMutex
  return rsp

/-- The end of the handler: commit index, header, success. -/
def finishLocked
    (req : AppendEntriesRequest)
    (rspTerm : Nat) :
    LockedSection AppendEntriesResponse := do
  underLock (modify fun server => server.followCommit req.leaderCommit)
  underLock (persistCircular false 0)
  finalize { term := rspTerm, success := true }

/-- `handle_append_entries_request` behind its checks. -/
def acceptLocked
    (relocked : Server)
    (copy : Except Exn Unit)
    (req : AppendEntriesRequest) :
    LockedSection AppendEntriesResponse := do
  let server ← underLock get
  let rspTerm := server.raft.currentTerm
  let newTail := req.prevLogIndex + 1
  let skipEntries := server.ring.tailLogIndex - newTail
  if newTail < server.ring.tailLogIndex ∧ req.numEntries ≤ skipEntries then
    finishLocked req rspTerm
  else if 0 < req.numEntries ∧ req.leaderPbaSrc ≠ 0 then
    underLock (modifyRing fun ring => { ring with tailSlot := req.startSlot })
    let copyFailed ←
      if req.dataAlreadyCopied then
        pure false
      else do
        unlockMutex
        let failed ← pbaCopyFails copy
        lockMutex relocked
        pure failed
    if copyFailed then
      finalize { term := rspTerm }
    else
      underLock (modify fun server => server.buildLog req newTail skipEntries)
      finishLocked req rspTerm
  else
    finishLocked req rspTerm

/-- `handle_append_entries_request`, with its locks. -/
def handleAppendEntriesLocked
    (server relocked : Server)
    (copy : Except Exn Unit)
    (req : AppendEntriesRequest) :
    LockedSection AppendEntriesResponse := do
  lockMutex server
  discard (underLock (updateTerm req.term))
  underLock (modify fun server => server.stepDown req)
  let server ← underLock get
  if server.raft.state ≠ .follower then
    finalize { term := server.raft.currentTerm }
  else if req.term < server.raft.currentTerm then
    finalize { term := server.raft.currentTerm }
  else
    -- Both conflicts of the previous entry are answered through `finalize`.
    match prevLogConflict server req with
    | some rsp => finalize rsp
    | none => acceptLocked relocked copy req

/-- The two sections of the handler, with what the second one finds. -/
def handleAppendApart
    (relocked : Server)
    (copied : Bool)
    (req : AppendEntriesRequest) :
    Section AppendEntriesResponse := do
  match ← handleAppendEntriesRequest req with
  | .replied rsp => return rsp
  | .copying pending =>
      set relocked
      handleAppendEntriesFinish pending copied

/-- Lock C of `append_entries_worker`, once `inflight` is taken back. -/
def answerLocked
    (fi : Nat)
    (call : AppendCall)
    (answer : Option AppendEntriesResponse) :
    LockedSection Unit :=
  match answer with
  | none => unlockMutex
  | some rsp => do
      let server ← underLock get
      if server.raft.currentTerm < rsp.term then
        unlockMutex
      else if rsp.term ≠ call.req.term ∧ server.raft.state = .leader then
        unlockMutex
      else if rsp.success then
        underLock (modify fun server =>
          server.applyAeSuccess fi call.next call.lenEntries)
        unlockMutex
      else
        underLock (modify fun server =>
          server.applyAeFailureBackoff fi call.req.prevLogIndex call.next rsp)
        if (server.member fi).nextIndex ≠ call.next then
          -- A stale failure.
          unlockMutex
        else
          unlockMutex

/-- Lock C of `append_entries_worker`. -/
def bookLocked
    (relocked : Server)
    (fi : Nat)
    (call : AppendCall)
    (answer : Option AppendEntriesResponse) :
    LockedSection Unit := do
  lockMutex relocked
  if call.hasEntries then
    underLock (modify fun server => server.setInflight fi false)
  answerLocked fi call answer

/-- `append_entries_worker` behind Lock B: the leader's copy, then Lock C. -/
def replicateLocked
    (relocked : Server)
    (copy : Except Exn Unit)
    (mode : ReplicationMode)
    (fi : Nat)
    (call : AppendCall)
    (answer : Option AppendEntriesResponse) :
    LockedSection Unit := do
  let copyFailed ←
    if call.hasEntries ∧ mode = .leaderSide then
      pbaCopyFails copy
    else
      pure false
  if copyFailed then
    if call.hasEntries then
      lockMutex relocked
      underLock (modify fun server => server.setInflight fi false)
      unlockMutex
  else
    bookLocked relocked fi call answer

/-- `append_entries_worker`, with its locks. -/
def appendEntriesWorkerLocked
    (server relocked : Server)
    (copy : Except Exn Unit)
    (fi : Nat)
    (answer : Option AppendEntriesResponse) :
    LockedSection Unit := do
  lockMutex server
  underLock (modify fun server => server.clampNext fi)
  let server ← underLock get
  let next := (server.member fi).nextIndex
  let last := server.lastLogIndex
  if next ≤ last ∧ (server.member fi).inflight then
    unlockMutex
  else
    let plan ← underLock (planRound next
      (if next ≤ last then min (last + 1 - next) server.maxAeBatch else 0))
    if 0 < plan.lenEntries then
      underLock (modify fun server => server.setInflight fi true)
    let call : AppendCall := {
      req := server.fillRequest next plan
      next
      lenEntries := plan.lenEntries
    }
    unlockMutex
    replicateLocked relocked copy server.replicationMode fi call answer

/-- The sections of a worker, with what Lock C finds. -/
def appendEntriesApart
    (relocked : Server)
    (copied : Bool)
    (fi : Nat)
    (answer : Option AppendEntriesResponse) :
    Section Unit := do
  let server ← get
  match ← appendEntriesSend fi with
  | none => return
  | some call =>
      set relocked
      appendEntriesReply fi call
        (if (call.hasEntries ∧ server.replicationMode = .leaderSide) ∧
            copied = false then
          none
        else
          answer)

@[simp] theorem wp_pbaCopyFails
    {returns : Bool → Guarded Server → Prop}
    {throws : GuardedExn Exn → Guarded Server → Prop}
    {guarded : Guarded Server}
    (copy : Except Exn Unit) :
    wp (pbaCopyFails copy) returns throws guarded ↔
      returns (!copy.isOk) guarded := by
  cases copy <;> rfl

section

variable
  {req : AppendEntriesRequest}
  {returns : AppendEntriesResponse → Server → Prop}
  {throws : Exn → Server → Prop}
  {server : Server}

/--
The end of an append frees the lock when it returns, and not when it throws.
-/
theorem finishLocked_around
    {rspTerm : Nat}
    (holds : wp (finishAppend req rspTerm) returns throws server) :
    wp (finishLocked req rspTerm) (Freed returns) (Stranded throws)
      ⟨server, true⟩ := by
  simp only [finishAppend, wp_bind, wp_modify, wp_pure] at holds
  simp only [finishLocked, finalize, wp_bind, wp_underLock, wp_modify,
    wp_unlockMutex, wp_pure]
  refine wp_mono holds ?_ ?_
  · intro _ final returned
    exact ⟨rfl, returned⟩
  · intro exn final thrown
    exact ⟨exn, rfl, rfl, thrown⟩

theorem acceptLocked_around
    {relocked : Server}
    {copy : Except Exn Unit}
    (holds :
      wp (acceptAppend req)
        (fun progress middle =>
          match progress with
          | .replied rsp => returns rsp middle
          | .copying pending =>
              wp (handleAppendEntriesFinish pending copy.isOk) returns throws
                relocked)
        throws server) :
    wp (acceptLocked relocked copy req) (Freed returns) (Stranded throws)
      ⟨server, true⟩ := by
  simp only [acceptAppend, modifyRing, wp_bind, wp_modify, wp_get, wp_ite,
    wp_pure] at holds
  simp only [acceptLocked, modifyRing, wp_bind, wp_underLock, wp_modify,
    wp_get, wp_ite]
  by_cases known :
      req.prevLogIndex + 1 < server.ring.tailLogIndex ∧
        req.numEntries ≤ server.ring.tailLogIndex - (req.prevLogIndex + 1)
  · rw [if_pos known] at holds ⊢
    exact finishLocked_around holds
  rw [if_neg known] at holds ⊢
  by_cases carries : 0 < req.numEntries ∧ req.leaderPbaSrc ≠ 0
  · rw [if_pos carries] at holds ⊢
    by_cases there : req.dataAlreadyCopied = true
    · rw [if_pos there] at holds ⊢
      simp only [completeAppend, wp_bind, wp_modify] at holds
      simp only [wp_pure, Bool.false_eq_true, if_false, wp_underLock,
        wp_modify]
      exact finishLocked_around holds
    · rw [if_neg there] at holds ⊢
      simp only [wp_unlockMutex, wp_pbaCopyFails, wp_lockMutex, wp_pure]
      cases copied : copy.isOk with
      | true =>
          simp only [copied, handleAppendEntriesFinish, completeAppend,
            wp_bind, wp_modify, if_true] at holds
          simp only [Bool.not_true, Bool.false_eq_true, if_false,
            wp_underLock, wp_modify]
          exact finishLocked_around holds
      | false =>
          simp only [copied, handleAppendEntriesFinish, Bool.false_eq_true,
            if_false, wp_pure] at holds
          simp only [Bool.not_false, if_true, finalize, wp_bind,
            wp_unlockMutex, wp_pure]
          exact ⟨rfl, holds⟩
  · rw [if_neg carries] at holds ⊢
    exact finishLocked_around holds

end

/-- The handler with its locks does what the sections do. -/
theorem handleAppendEntriesLocked_around
    (server relocked : Server)
    (copy : Except Exn Unit)
    (req : AppendEntriesRequest) :
    LocksAround (handleAppendEntriesLocked server relocked copy req)
      (handleAppendApart relocked copy.isOk req) server := by
  intro returns throws state holds
  simp only [handleAppendApart, handleAppendEntriesRequest, wp_bind,
    wp_discard, wp_modify, wp_get, wp_ite, wp_pure] at holds
  simp only [handleAppendEntriesLocked, finalize, wp_bind, wp_discard,
    wp_lockMutex, wp_underLock, wp_modify, wp_get, wp_ite, wp_pure,
    wp_unlockMutex]
  refine wp_mono holds ?_ ?_
  · intro _ middle goesOn
    split_ifs with role stale
    · rw [if_pos (.inl role)] at goesOn
      exact ⟨rfl, goesOn⟩
    · rw [if_pos (.inr stale)] at goesOn
      exact ⟨rfl, goesOn⟩
    · rw [if_neg (not_or.mpr ⟨role, stale⟩)] at goesOn
      cases conflict : prevLogConflict (middle.stepDown req) req with
      | some rsp =>
          rw [conflict] at goesOn
          exact ⟨rfl, goesOn⟩
      | none =>
          rw [conflict] at goesOn
          apply acceptLocked_around
          refine wp_mono goesOn ?_ fun _ _ thrown => thrown
          intro progress final ends
          cases progress with
          | replied rsp => exact ends
          | copying pending => exact ends
  · intro exn final thrown
    exact ⟨exn, rfl, rfl, thrown⟩

section

variable
  {relocked state : Server}
  {fi : Nat}
  {call : AppendCall}
  {answer : Option AppendEntriesResponse}
  {returns : Unit → Server → Prop}
  {throws : Exn → Server → Prop}

theorem answerLocked_around
    {server : Server}
    (idle :
      (if call.hasEntries then relocked.setInflight fi false else relocked) =
        server)
    (holds : returns () (relocked.bookAnswer fi call answer)) :
    wp (answerLocked fi call answer) (Freed returns) (Stranded throws)
      ⟨server, true⟩ := by
  simp only [Server.bookAnswer, idle] at holds
  cases answer with
  | none =>
      exact ⟨rfl, holds⟩
  | some rsp =>
      dsimp only at holds
      simp only [answerLocked, wp_bind, wp_underLock, wp_get, wp_ite,
        wp_modify, wp_unlockMutex]
      split_ifs at holds ⊢
      all_goals exact ⟨rfl, holds⟩

/-- Booking an answer returns unlocked. -/
theorem bookLocked_around
    (holds : returns () (relocked.bookAnswer fi call answer)) :
    wp (bookLocked relocked fi call answer) (Freed returns) (Stranded throws)
      ⟨state, false⟩ := by
  simp only [bookLocked, wp_bind, wp_lockMutex, wp_ite, wp_underLock,
    wp_modify]
  by_cases entries : call.hasEntries = true
  · rw [if_pos entries]
    exact answerLocked_around (if_pos entries) holds
  · rw [if_neg entries]
    exact answerLocked_around (if_neg entries) holds

theorem replicateLocked_around
    {copy : Except Exn Unit}
    {mode : ReplicationMode}
    (holds :
      returns ()
        (relocked.bookAnswer fi call
          (if (call.hasEntries ∧ mode = .leaderSide) ∧ copy.isOk = false then
            none
          else
            answer))) :
    wp (replicateLocked relocked copy mode fi call answer) (Freed returns)
      (Stranded throws) ⟨state, false⟩ := by
  rw [replicateLocked]
  simp only [wp_bind, wp_ite, wp_pbaCopyFails, wp_pure]
  by_cases leads : call.hasEntries = true ∧ mode = .leaderSide
  · rw [if_pos leads]
    cases copied : copy.isOk with
    | false =>
        rw [if_pos ⟨leads, copied⟩, Server.bookAnswer, leads.1] at holds
        simp only [Bool.not_false, if_true, leads.1, wp_lockMutex,
          wp_underLock, wp_modify, wp_unlockMutex]
        exact ⟨rfl, holds⟩
    | true =>
        rw [if_neg fun failed =>
          Bool.noConfusion (copied.symm.trans failed.2)] at holds
        exact bookLocked_around holds
  · rw [if_neg leads]
    rw [if_neg fun failed => leads failed.1] at holds
    exact bookLocked_around holds

/-- The worker with its locks does what the sections do. -/
theorem appendEntriesWorkerLocked_around
    (server relocked : Server)
    (copy : Except Exn Unit)
    (fi : Nat)
    (answer : Option AppendEntriesResponse) :
    LocksAround (appendEntriesWorkerLocked server relocked copy fi answer)
      (appendEntriesApart relocked copy.isOk fi answer) server := by
  intro returns throws state holds
  simp only [appendEntriesApart, appendEntriesSend, appendEntriesReply,
    wp_bind, wp_modify, wp_get, wp_ite, wp_pure] at holds
  simp only [appendEntriesWorkerLocked, wp_bind, wp_lockMutex, wp_underLock,
    wp_modify, wp_get, wp_ite, wp_unlockMutex]
  by_cases busy :
      ((server.clampNext fi).member fi).nextIndex ≤
          (server.clampNext fi).lastLogIndex ∧
        ((server.clampNext fi).member fi).inflight = true
  · rw [if_pos busy] at holds ⊢
    exact ⟨rfl, holds⟩
  rw [if_neg busy] at holds ⊢
  refine wp_mono holds ?_ ?_
  · intro plan middle goesOn
    by_cases entries : 0 < plan.lenEntries
    · rw [if_pos entries] at goesOn ⊢
      exact replicateLocked_around goesOn
    · rw [if_neg entries] at goesOn ⊢
      exact replicateLocked_around goesOn
  · intro exn final thrown
    exact ⟨exn, rfl, rfl, thrown⟩

end

end NvmeofRaft
