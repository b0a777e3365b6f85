import NvmeofRaft.CachedFd

namespace NvmeofRaft

/-!
# Ring and log index arithmetic

`raft_ring_helpers.cpp` and `RingLog::configure`: the translation between
absolute log indices and positions of the in-memory vector, slot counts, the
admission test of the ring and the recomputation of its head.
-/

/-- `slots_for_entry`: header and command, rounded up to whole slots. -/
def slotsForEntry (cmdLen : Nat) : Nat :=
  (entryMetaSize + cmdLen + sectorSize - 1) / sectorSize

/-- `entry_slots`: a deferred entry is sized by its stored command length. -/
def entrySlots (entry : Entry) : Nat :=
  if entry.command.isEmpty then
    slotsForEntry entry.cmdLen
  else
    slotsForEntry entry.command.length

/-- `slot_offset`. -/
def slotOffset (slot : Nat) : Nat :=
  ringOffset + slot * sectorSize

/-- Every entry takes at least one slot. -/
theorem slotsForEntry_pos
    (cmdLen : Nat) :
    0 < slotsForEntry cmdLen := by
  unfold slotsForEntry entryMetaSize sectorSize
  omega

/-- Slots start behind the file header. -/
theorem headerSize_le_slotOffset
    (slot : Nat) :
    headerSize ≤ slotOffset slot := by
  unfold slotOffset ringOffset
  omega

/-- `RingLog::configure`. -/
def RingLog.configure
    (ring : RingLog)
    (pages : Nat) :
    RingLog :=
  let pages := if pages < 2 then 2 else pages
  { ring with
    numPages := pages
    totalSlots := pages * slotsPerPage
    ringSlots := pages * slotsPerPage - 1 }

/-- `RingLog::file_size_bytes`. -/
def RingLog.fileSizeBytes (ring : RingLog) : Nat :=
  ring.numPages * pageSize

namespace Server

/-- `oldest_log_index`. -/
def oldestLogIndex (server : Server) : Nat :=
  sub64 server.ring.tailLogIndex (server.raft.log.length - 1)

/--
`log_slice`.  The source computes `1 + (log_idx - oldest)`; the terms are
regrouped so that only the subtraction can wrap.
-/
def logSlice (server : Server) (logIdx : Nat) : Nat :=
  sub64 (logIdx + 1) server.oldestLogIndex

/-- `raft.log[log_slice(log_idx)]`. -/
def logAt (server : Server) (logIdx : Nat) : Entry :=
  server.raft.log.getD (server.logSlice logIdx) {}

/-- `slots_for_log_index`. -/
def slotsForLogIndex (server : Server) (logIdx : Nat) : Nat :=
  match server.ring.logSlotMap.lookup logIdx with
  | some record => record.numSlots
  | none => entrySlots (server.logAt logIdx)

/-- `get_voted_for`: the node's own vote is a field of its own member record. -/
def getVotedFor (server : Server) : Nat :=
  (server.raft.cluster.getD server.raft.clusterIndex { id := 0 }).votedFor

/-- `set_voted_for`. -/
def setVotedFor (server : Server) (vote : Nat) : Server :=
  { server with
    raft := { server.raft with
      cluster := server.raft.cluster.modify server.raft.clusterIndex
        fun member => { member with votedFor := vote } } }

end Server

/-- The loop of `can_write_all`. -/
def canWriteLoop
    (ringSlots headSlot : Nat) :
    Nat → Bool → List (List UInt8) → Bool
  | _, _, [] =>
      true
  | slot, wrapped, command :: rest =>
      let needed := slotsForEntry command.length
      let wraps := decide (slot + needed > ringSlots)
      let slot := if wraps then 0 else slot
      let wrapped := wrapped || wraps
      if wrapped && decide (slot + needed > headSlot) then
        false
      else
        canWriteLoop ringSlots headSlot (slot + needed) wrapped rest

/-- `can_write_all`. -/
def canWriteAll
    (ring : RingLog)
    (commands : List (List UInt8)) :
    Bool :=
  if ring.logSlotMap.entries.isEmpty then
    true
  else
    canWriteLoop ring.ringSlots ring.headSlot ring.tailSlot
      (decide (ring.tailSlot < ring.headSlot)) commands

/-- The start slots of all live entries. -/
def SlotMap.starts (slots : SlotMap) : List Nat :=
  slots.entries.map fun item => item.2.start

/-- `recompute_head_slot`. -/
def recomputeHeadSlot (ring : RingLog) : RingLog :=
  if ring.logSlotMap.entries.isEmpty then
    { ring with headSlot := ring.tailSlot }
  else
    let starts := SlotMap.starts ring.logSlotMap
    let ahead := starts.filter fun start => decide (ring.tailSlot ≤ start)
    let behind := starts.filter fun start => decide (start < ring.tailSlot)
    match ahead.min? with
    | some minAhead => { ring with headSlot := minAhead }
    | none =>
        -- `min_wrap`; some entry is behind the tail when none is ahead.
        { ring with headSlot := behind.min?.getD (2 ^ 64 - 1) }

/-- `init_slot_states`. -/
def initSlotStates (ring : RingLog) : RingLog :=
  { ring with
    logSlotMap := ∅
    headSlot := 0
    gcUpTo := 0
    gcHasRun := false }

/-- Mark every record of the map as in use. -/
def SlotMap.markUsing (slots : SlotMap) : SlotMap :=
  ⟨slots.entries.map fun item => ⟨item.1, { item.2 with state := .using }⟩, by
    have sameKeys :
        (slots.entries.map fun item =>
          (⟨item.1, { item.2 with state := .using }⟩ :
            Sigma fun _ : Nat => SlotRecord)).keys = slots.entries.keys := by
      simp [List.keys, Function.comp_def]
    unfold List.NodupKeys
    rw [sameKeys]
    exact slots.nodupKeys⟩

/-- `rebuild_slot_states_from_map`. -/
def rebuildSlotStatesFromMap (ring : RingLog) : RingLog :=
  recomputeHeadSlot
    { ring with logSlotMap := SlotMap.markUsing ring.logSlotMap }

end NvmeofRaft
