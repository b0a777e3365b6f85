import NvmeofRaft.Election

namespace NvmeofRaft

/-!
# The follower's append handler

`handle_append_entries_request`.  The handler releases `mu` around
`do_pba_copy`, so it is two lock sections: the first one ends with a reply or
with a `PendingAppend`, the local variables that the second section still
uses.  A request whose data is already copied runs through in one section.
-/

/-- The locals of a handler that has released `mu` for the block copy. -/
structure PendingAppend where
  req : AppendEntriesRequest
  rspTerm : Nat
  newTail : Nat
  skipEntries : Nat
  deriving Repr, DecidableEq

/-- How the first lock section of the handler ends. -/
inductive AppendProgress where
  | replied (rsp : AppendEntriesResponse)
  | copying (pending : PendingAppend)
  deriving Repr, DecidableEq

/-- The scan for the first index of the conflicting term. -/
def conflictStart
    (server : Server)
    (oldest localTerm : Nat) :
    Nat → Nat
  | 0 =>
      0
  | index + 1 =>
      if oldest < index + 1 ∧ (server.logAt index).term = localTerm then
        conflictStart server oldest localTerm index
      else
        index + 1

/-- The check of the previous entry; the answer of a failed check. -/
def prevLogConflict
    (server : Server)
    (req : AppendEntriesRequest) :
    Option AppendEntriesResponse :=
  if req.prevLogIndex = 0 then
    none
  else if server.ring.tailLogIndex ≤ req.prevLogIndex then
    some {
      term := server.raft.currentTerm
      conflictTerm := 0
      conflictIndex := server.ring.tailLogIndex
    }
  else
    let oldest := server.oldestLogIndex
    let localTerm := (server.logAt req.prevLogIndex).term
    if oldest ≤ req.prevLogIndex ∧ localTerm ≠ req.prevLogTerm then
      some {
        term := server.raft.currentTerm
        conflictTerm := localTerm
        conflictIndex :=
          conflictStart server oldest localTerm req.prevLogIndex
      }
    else
      none

/-- Advance the tail slot over one received entry. -/
def RingLog.passSlots
    (ring : RingLog)
    (needed : Nat) :
    RingLog :=
  let next := ring.tailSlot + needed
  { ring with tailSlot := if ring.ringSlots ≤ next then 0 else next }

/-- One iteration of the build loop, for the entry at position `index`. -/
def appendMeta
    (skipEntries index : Nat)
    (entryMeta : EntryMeta)
    (server : Server) :
    Server :=
  let entry : Entry := {
    term := entryMeta.term
    ringSlot := server.ring.tailSlot
    cmdLen := entryMeta.cmdLen
  }
  let server :=
    if skipEntries ≤ index then
      server.mapRaft fun raft => { raft with log := raft.log ++ [entry] }
    else
      server
  { server with
    ring := server.ring.passSlots (slotsForEntry entryMeta.cmdLen) }

/-- The build loop of the handler. -/
def appendMetas
    (skipEntries : Nat) :
    Nat → List EntryMeta → Server → Server
  | _, [], server =>
      server
  | index, entryMeta :: rest, server =>
      appendMetas skipEntries (index + 1) rest
        (appendMeta skipEntries index entryMeta server)

/-- Build the in-memory log from the metadata of the request. -/
def Server.buildLog
    (server : Server)
    (req : AppendEntriesRequest)
    (newTail skipEntries : Nat) :
    Server :=
  if req.entryMetas.length = req.numEntries then
    let server := appendMetas skipEntries 0 req.entryMetas server
    { server with
      ring := { server.ring with tailLogIndex := newTail + req.numEntries } }
  else
    server

/-- The commit index update of the handler. -/
def Server.followCommit
    (server : Server)
    (leaderCommit : Nat) :
    Server :=
  server.mapRaft fun raft =>
    { raft with
      commitIndex :=
        if raft.commitIndex < leaderCommit then
          min leaderCommit (server.ring.tailLogIndex - 1)
        else
          raft.commitIndex }

/-- The common end of the handler: commit index, header, success. -/
def finishAppend
    (req : AppendEntriesRequest)
    (rspTerm : Nat) :
    Section AppendEntriesResponse := do
  modify fun server => server.followCommit req.leaderCommit
  persistCircular false 0
  return { term := rspTerm, success := true }

/-- The handler from the log build on. -/
def completeAppend
    (pending : PendingAppend) :
    Section AppendEntriesResponse := do
  modify fun server =>
    server.buildLog pending.req pending.newTail pending.skipEntries
  finishAppend pending.req pending.rspTerm

/-- A candidate steps down before an append of its own term. -/
def Server.stepDown
    (server : Server)
    (req : AppendEntriesRequest) :
    Server :=
  if req.term = server.raft.currentTerm ∧
      server.raft.state = .candidate then
    server.mapRaft fun raft => { raft with state := .follower }
  else
    server

/-- `handle_append_entries_request` behind the term and state checks. -/
def acceptAppend
    (req : AppendEntriesRequest) :
    Section AppendProgress := do
  let server ← get
  let rspTerm := server.raft.currentTerm
  let newTail := req.prevLogIndex + 1
  let skipEntries := server.ring.tailLogIndex - newTail
  if newTail < server.ring.tailLogIndex ∧ req.numEntries ≤ skipEntries then
    return .replied (← finishAppend req rspTerm)
  if 0 < req.numEntries ∧ req.leaderPbaSrc ≠ 0 then
    modifyRing fun ring => { ring with tailSlot := req.startSlot }
    let pending := { req, rspTerm, newTail, skipEntries }
    if req.dataAlreadyCopied then
      return .replied (← completeAppend pending)
    else
      return .copying pending
  else
    return .replied (← finishAppend req rspTerm)

/-- The first lock section of `handle_append_entries_request`. -/
def handleAppendEntriesRequest
    (req : AppendEntriesRequest) :
    Section AppendProgress := do
  discard (updateTerm req.term)
  modify fun server => server.stepDown req
  let server ← get
  if server.raft.state ≠ .follower ∨
      req.term < server.raft.currentTerm then
    return .replied { term := server.raft.currentTerm }
  match prevLogConflict server req with
  | some rsp => return .replied rsp
  | none => acceptAppend req

/--
The second lock section, after `do_pba_copy` returned or threw.  A failed copy
is answered without success.
-/
def handleAppendEntriesFinish
    (pending : PendingAppend)
    (copied : Bool) :
    Section AppendEntriesResponse := do
  if copied then
    completeAppend pending
  else
    return { term := pending.rspTerm }

end NvmeofRaft
