import NvmeofRaft.RingHelpers
import NvmeofRaft.StateFrame

namespace NvmeofRaft

/-!
# Persisting entries and the header

`raft_persist.cpp`: new entries are encoded into a reused run buffer, placed
in the ring by the slot allocator and written in runs; the file header is
written only when the cached term or vote differs, and one `fdatasync` ends
the call.
-/

namespace AlignedBuffer

/-- `AlignedBuffer::size`. -/
def size (buffer : AlignedBuffer) : Nat :=
  buffer.data.length

/-- `AlignedBuffer::clear` keeps the capacity. -/
def clear (buffer : AlignedBuffer) : AlignedBuffer :=
  { buffer with data := [] }

/-- `AlignedBuffer::resize`: bytes beyond the old size read as zeros. -/
def resize
    (buffer : AlignedBuffer)
    (newSize : Nat) :
    AlignedBuffer where
  data :=
    buffer.data.take newSize ++
      List.replicate (newSize - buffer.data.length) 0
  capacity :=
    if newSize > buffer.capacity then
      alignUp newSize sectorSize
    else
      buffer.capacity

end AlignedBuffer

/--
The bytes of one entry: the 32-byte header, the command, and zeros up to the
slot boundary.
-/
def encodeEntry
    (entry : Entry)
    (needed logIdx : Nat) :
    List UInt8 :=
  let header :=
    putU64Le entry.term ++ putU64Le entry.command.length ++
      putU64Le needed ++ putU64Le logIdx
  header ++ entry.command ++
    List.replicate
      (needed * sectorSize - (entryMetaSize + entry.command.length)) 0

/-- The 512 header bytes written at file offset 0. -/
def encodeHeader (server : Server) : List UInt8 :=
  let fields :=
    putU64Le server.raft.currentTerm ++ putU64Le server.getVotedFor ++
      putU64Le server.ring.tailLogIndex ++ putU64Le server.ring.tailSlot ++
      putU64Le server.raft.commitIndex ++ putU64Le server.raft.lastApplied
  fields ++ List.replicate (headerSize - fields.length) 0

/-- Change the ring state. -/
def modifyRing (change : RingLog → RingLog) : Section Unit :=
  modify fun server => { server with ring := change server.ring }

/-- The `flush_run` closure: write the buffered run and empty the buffer. -/
def flushRun (runOff : Nat) : Section Nat := do
  let server ← get
  let buffer := server.ring.runBuf
  if buffer.data.isEmpty then
    return runOff
  writeAtFile buffer.data runOff
  modifyRing fun ring => { ring with runBuf := ring.runBuf.clear }
  return runOff + buffer.size

/--
The ring wrap of the slot allocator: an entry that does not fit in front of
the ring end goes to slot 0.
-/
def wrapTail
    (needed runOff : Nat) :
    Section Nat := do
  let server ← get
  if server.ring.tailSlot + needed > server.ring.ringSlots then
    let runOff ← flushRun runOff
    modifyRing fun ring => { ring with tailSlot := 0 }
    return runOff
  else
    return runOff

/--
The extent skip of the slot allocator, taken on a fragmented file when the
entry would span two extents.
-/
def skipExtentEnd
    (needed runOff : Nat)
    (extHint : Int) :
    Section (Nat × Int) := do
  let server ← get
  if server.io.isContiguous then
    return (runOff, extHint)
  let found :=
    remainingAt server.io.extents
      (slotOffset server.ring.tailSlot) extHint
  if found.1 < needed * sectorSize then
    let runOff ← flushRun runOff
    modifyRing fun ring =>
      let skipped := ring.tailSlot + found.1 / sectorSize
      { ring with
        tailSlot :=
          if skipped + needed > ring.ringSlots then 0 else skipped }
    let server ← get
    let again :=
      remainingAt server.io.extents
        (slotOffset server.ring.tailSlot) found.2
    return (runOff, again.2)
  else
    return (runOff, found.2)

/-- Encode the entry into the run buffer and record its slots. -/
def placeEntry
    (entry : Entry)
    (needed logIdx runOff : Nat) :
    Section Nat := do
  let server ← get
  let runOff :=
    if server.ring.runBuf.data.isEmpty then
      slotOffset server.ring.tailSlot
    else
      runOff
  let startSlot := server.ring.tailSlot
  modifyRing fun ring =>
    let grown := ring.runBuf.resize
      (ring.runBuf.size + needed * sectorSize)
    { ring with
      runBuf := { grown with
        data := ring.runBuf.data ++ encodeEntry entry needed logIdx }
      tailSlot := ring.tailSlot + needed }
  if server.raft.state = .leader then
    modifyRing fun ring =>
      { ring with
        logSlotMap := ring.logSlotMap.insert logIdx
          { start := startSlot, numSlots := needed, state := .using } }
  return runOff

/-- One iteration of the entry loop of `persist_circular`. -/
def persistEntry
    (entry : Entry)
    (logIdx : Nat)
    (cursor : Nat × Int) :
    Section (Nat × Int) := do
  let needed := slotsForEntry entry.command.length
  let runOff ← wrapTail needed cursor.1
  let cursor ← skipExtentEnd needed runOff cursor.2
  let runOff ← placeEntry entry needed logIdx cursor.1
  return (runOff, cursor.2)

/-- The entry loop of `persist_circular`, over consecutive log indices. -/
def persistEntries :
    List Entry → Nat → Nat × Int → Section (Nat × Int)
  | [], _, cursor =>
      return cursor
  | entry :: rest, logIdx, cursor => do
      let cursor ← persistEntry entry logIdx cursor
      persistEntries rest (logIdx + 1) cursor

/-- The part of `persist_circular` that writes the last `count` entries. -/
def persistLog (count : Nat) : Section Unit := do
  let server ← get
  let size := server.raft.log.length
  let start := max 1 (size - count)
  let fresh := server.raft.log.drop start
  let estSize :=
    (fresh.map fun entry =>
      slotsForEntry entry.command.length * sectorSize).sum
  modifyRing fun ring =>
    { ring with
      runBuf :=
        if ring.runBuf.capacity < estSize then
          (ring.runBuf.resize estSize).clear
        else
          ring.runBuf.clear }
  let cursor ← persistEntries fresh
    (sub64 server.ring.tailLogIndex (size - start)) (0, 0)
  discard (flushRun cursor.1)

/-- Whether the cached term and vote differ from the ones in memory. -/
def needsHeader (server : Server) : Bool :=
  !server.ring.persistedInit ||
    decide (server.raft.currentTerm ≠ server.ring.persistedTerm) ||
    decide (server.getVotedFor ≠ server.ring.persistedVotedFor)

/-- Write the header at offset 0 and update the skip cache. -/
def persistHeader : Section Unit := do
  let server ← get
  writeAtFile (encodeHeader server) 0
  modify fun server => { server with
    ring := { server.ring with
      persistedInit := true
      persistedTerm := server.raft.currentTerm
      persistedVotedFor := server.getVotedFor }
    io := { server.io with
      headerWrites :=
        (server.raft.currentTerm, server.getVotedFor) ::
          server.io.headerWrites } }

/-- History: note the normal return of a `persist_circular` call. -/
def notePersistReturn (server : Server) : Server :=
  { server with
    io := { server.io with
      persistReturns :=
        { term := server.raft.currentTerm
          votedFor := server.getVotedFor
          stableHeader := server.io.stable.read 0 16 } ::
          server.io.persistReturns } }

/-- The header and the one `fdatasync` at the end of a call. -/
def persistSync (logging : Bool) : Section Unit := do
  let server ← get
  if needsHeader server then
    persistHeader
    fdatasync
  else if logging then
    fdatasync
  else
    return

/-- `persist_circular`. -/
def persistCircular
    (writeLog : Bool)
    (nNewEntries : Nat) :
    Section Unit := do
  let server ← get
  let count :=
    if nNewEntries = 0 ∧ writeLog then
      server.raft.log.length - 1
    else
      nNewEntries
  if writeLog ∧ 0 < count then
    persistLog count
    persistSync true
    modify notePersistReturn
  else
    persistSync false
    modify notePersistReturn

end NvmeofRaft
