import NvmeofRaft.HandleAppendEntries

namespace NvmeofRaft

/-!
# Replication to one follower

`append_entries_worker`: Lock B builds the request from the leader's log and
slot map, Lock C books the answer.  `leader_pba_for_range` comes from
`raft_pba.cpp`.
-/

/-- The locals of a worker between Lock B and Lock C. -/
structure AppendCall where
  req : AppendEntriesRequest
  next : Nat
  lenEntries : Nat
  deriving Repr, DecidableEq

/-- `has_entries`. -/
def AppendCall.hasEntries (call : AppendCall) : Bool :=
  decide (0 < call.lenEntries)

/-- `leader_pba_for_range`: the source address and the contiguous bytes. -/
def leaderPbaForRange
    (startSlot totalSlots : Nat) :
    Section (Nat × Nat) := do
  if totalSlots = 0 then
    return (0, 0)
  let nbytes := alignUp (totalSlots * sectorSize) pageSize
  let segment ← getPba (slotOffset startSlot) nbytes
  if segment.pba = 0 then
    throw .holeInRingFile
  if 0 < segment.len ∧ segment.len < nbytes then
    return (segment.pba, alignUp segment.len pageSize)
  else
    return (segment.pba, nbytes)

/--
The common shape of the three clamp loops: take entries from `logIdx` on, at
most `bound` of them, while `fits accepted total needed` holds.
-/
def takeEntries
    (server : Server)
    (fits : Nat → Nat → Nat → Bool) :
    Nat → Nat → Nat → Nat → Nat × Nat
  | 0, _, accepted, total =>
      (accepted, total)
  | bound + 1, logIdx, accepted, total =>
      let needed := server.slotsForLogIndex logIdx
      if fits accepted total needed then
        takeEntries server fits bound (logIdx + 1) (accepted + 1)
          (total + needed)
      else
        (accepted, total)

/-- The byte cap: the first entry is always accepted. -/
def Server.underByteCap
    (server : Server)
    (accepted total needed : Nat) :
    Bool :=
  decide (accepted = 0) ||
    decide ((total + needed) * sectorSize ≤ server.maxAeBatchBytes)

/-- The entries of the round: byte cap, then the clamp at the ring end. -/
def Server.roundEntries
    (server : Server)
    (next lenEntries startSlot : Nat) :
    Nat × Nat :=
  let capped := takeEntries server server.underByteCap lenEntries next 0 0
  let untilEnd := server.ring.ringSlots - startSlot
  if untilEnd < capped.2 then
    takeEntries server
      (fun accepted total needed =>
        decide (total + needed ≤ untilEnd) &&
          server.underByteCap accepted total needed)
      (server.lastLogIndex + 1 - next) next 0 0
  else
    capped

/-- The clamp at the end of the leader's extent. -/
def Server.clampToExtent
    (server : Server)
    (next : Nat)
    (round : Nat × Nat)
    (actualSlots : Nat) :
    Nat × Nat :=
  if actualSlots < round.2 then
    takeEntries server
      (fun _ total needed => decide (total + needed ≤ actualSlots))
      (server.lastLogIndex + 1 - next) next 0 0
  else
    round

/-- `slots_per_entry` of a round, kept from before the extent clamp. -/
def slotsPerEntry (round : Nat × Nat) : Nat :=
  (round.2 + round.1 - 1) / round.1

/-- The metadata of one entry; a deferred entry uses its stored length. -/
def Entry.toMeta (entry : Entry) : EntryMeta where
  term := entry.term
  cmdLen :=
    if entry.command.isEmpty ∧ entry.ringSlot ≠ 0 then
      entry.cmdLen
    else
      entry.command.length

/-- The start slot of the round, unless the first entry was collected. -/
def Server.startSlotOf
    (server : Server)
    (next : Nat) :
    Option Nat :=
  if server.ring.gcHasRun ∧ next ≤ server.ring.gcUpTo then
    none
  else
    (server.ring.logSlotMap.lookup next).map SlotRecord.start

/-- What the data-bearing part of Lock B determines. -/
structure RoundPlan where
  lenEntries : Nat := 0
  leaderPbaSrc : Nat := 0
  logBlockLength : Nat := 0
  slotsPerEntry : Nat := 0
  startSlot : Nat := 0

/-- Slot lookup, clamps and address lookup of Lock B. -/
def planRound
    (next lenEntries : Nat) :
    Section RoundPlan := do
  let server ← get
  if lenEntries = 0 then
    return {}
  match server.startSlotOf next with
  | none =>
      return {}
  | some startSlot =>
      let round := server.roundEntries next lenEntries startSlot
      if round.1 = 0 then
        return {
          startSlot
          slotsPerEntry := slotsPerEntry
            (takeEntries server server.underByteCap lenEntries next 0 0)
        }
      let found ← leaderPbaForRange startSlot round.2
      let clamped := server.clampToExtent next round (found.2 / sectorSize)
      return {
        lenEntries := clamped.1
        leaderPbaSrc := found.1
        logBlockLength := clamped.2
        slotsPerEntry := slotsPerEntry round
        startSlot
      }

/-- The term of the entry in front of the round, when it is in memory. -/
def Server.prevLogTerm
    (server : Server)
    (prevLogIndex : Nat) :
    Nat :=
  if server.oldestLogIndex ≤ prevLogIndex ∧
      prevLogIndex < server.ring.tailLogIndex then
    (server.logAt prevLogIndex).term
  else
    0

/-- The request that Lock B fills. -/
def Server.fillRequest
    (server : Server)
    (next : Nat)
    (plan : RoundPlan) :
    AppendEntriesRequest where
  term := server.raft.currentTerm
  leaderId := (server.member server.raft.clusterIndex).id
  prevLogIndex := next - 1
  prevLogTerm := if 0 < next then server.prevLogTerm (next - 1) else 0
  leaderCommit := server.raft.commitIndex
  leaderPbaSrc := plan.leaderPbaSrc
  logBlockLength := plan.logBlockLength
  numEntries := plan.lenEntries
  slotsPerEntry := plan.slotsPerEntry
  startSlot := plan.startSlot
  leaderDevIndex := server.raft.clusterIndex
  entryMetas := (List.range plan.lenEntries).map fun offset =>
    (server.logAt (next + offset)).toMeta

/-- Mark whether a data-bearing request to the member is under way. -/
def Server.setInflight
    (server : Server)
    (fi : Nat)
    (inflight : Bool) :
    Server :=
  server.mapMember fi fun member => { member with inflight }

/-- `next_index` is pulled back when it is ahead of the own log. -/
def Server.clampNext
    (server : Server)
    (fi : Nat) :
    Server :=
  server.mapMember fi fun member =>
    { member with
      nextIndex := min member.nextIndex (server.lastLogIndex + 1) }

/--
Lock B of `append_entries_worker`.  The answer is `none` when an earlier
data-bearing request is still in flight.
-/
def appendEntriesSend
    (fi : Nat) :
    Section (Option AppendCall) := do
  modify fun server => server.clampNext fi
  let server ← get
  let next := (server.member fi).nextIndex
  let last := server.lastLogIndex
  if next ≤ last ∧ (server.member fi).inflight then
    return none
  let plan ← planRound next
    (if next ≤ last then min (last + 1 - next) server.maxAeBatch else 0)
  if 0 < plan.lenEntries then
    modify fun server => server.setInflight fi true
  return some {
    req := server.fillRequest next plan
    next
    lenEntries := plan.lenEntries
  }

/-- `apply_ae_success`, without the timer of the next heartbeat. -/
def Server.applyAeSuccess
    (server : Server)
    (fi next lenEntries : Nat) :
    Server :=
  server.mapMember fi fun member =>
    let nextIndex := max member.nextIndex (max (next + lenEntries) 1)
    { member with nextIndex, matchIndex := nextIndex - 1 }

/-- The backward search for the conflicting term in the leader's log. -/
def conflictNext
    (server : Server)
    (oldest conflictTerm conflictIndex : Nat) :
    Nat → Nat
  | 0 =>
      conflictIndex
  | index + 1 =>
      let term := (server.logAt (index + 1)).term
      if index + 1 < oldest then
        conflictIndex
      else if term = conflictTerm then
        index + 2
      else if term < conflictTerm ∨ index + 1 = oldest then
        conflictIndex
      else
        conflictNext server oldest conflictTerm conflictIndex index

/-- The next index that the hints of a rejection suggest. -/
def Server.backoffNext
    (server : Server)
    (next prevLogIndex : Nat)
    (rsp : AppendEntriesResponse) :
    Nat :=
  let newNext :=
    if rsp.conflictTerm = 0 ∧ rsp.conflictIndex = 0 then
      sub64 next 1
    else if rsp.conflictTerm = 0 then
      rsp.conflictIndex
    else
      conflictNext server server.oldestLogIndex rsp.conflictTerm
        rsp.conflictIndex prevLogIndex
  if next ≤ newNext then next - 1 else newNext

/-- `apply_ae_failure_backoff`; a stale failure changes nothing. -/
def Server.applyAeFailureBackoff
    (server : Server)
    (fi prevLogIndex sentNext : Nat)
    (rsp : AppendEntriesResponse) :
    Server :=
  server.mapMember fi fun member =>
    if member.nextIndex ≠ sentNext then
      member
    else
      let newNext := server.backoffNext member.nextIndex prevLogIndex rsp
      { member with
        nextIndex := max (max newNext 1) (member.matchIndex + 1) }

/--
The bookkeeping of Lock C; `none` stands for a failed call.  An answer of a
higher term is dropped without a demotion.
-/
def Server.bookAnswer
    (server : Server)
    (fi : Nat)
    (call : AppendCall)
    (answer : Option AppendEntriesResponse) :
    Server :=
  let server :=
    if call.hasEntries then server.setInflight fi false else server
  match answer with
  | none =>
      server
  | some rsp =>
      if server.raft.currentTerm < rsp.term then
        server
      else if rsp.term ≠ call.req.term ∧ server.raft.state = .leader then
        server
      else if rsp.success then
        server.applyAeSuccess fi call.next call.lenEntries
      else
        server.applyAeFailureBackoff fi call.req.prevLogIndex call.next rsp

/-- Lock C of `append_entries_worker`. -/
def appendEntriesReply
    (fi : Nat)
    (call : AppendCall)
    (answer : Option AppendEntriesResponse) :
    Section Unit :=
  modify fun server => server.bookAnswer fi call answer

end NvmeofRaft
