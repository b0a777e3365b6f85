import Mathlib.Data.List.AList
import NvmeofRaft.ByteImage

namespace NvmeofRaft

/-!
# Server state

The data of one Raft node: log entries and RPC messages (`raft_entry.h`), the
geometry constants (`raft_constants.h`, `block_geometry.h`) and the state
groups of `Server` (`raft_state.h`, `raft_server.h`).

The 64-bit counters of the source are natural numbers.  Indices and slots only
grow by increments, so the difference shows at a subtraction whose result
would be negative; `sub64` is used where the source can reach that case.
`current_term` is also assigned from messages, so it can stand at the largest
word and wrap at the next timeout; `TermWords` has the node that does.  Clock
reads are not part of the state: whether a timer has expired is an input of
the operation that asks.
-/

/-- `uint64_t` subtraction of two values below `2 ^ 64`. -/
def sub64 (left right : Nat) : Nat :=
  if right ≤ left then left - right else 2 ^ 64 + left - right

/-- No wrap-around when the subtrahend is not larger. -/
theorem sub64_of_le
    {left right : Nat}
    (noWrap : right ≤ left) :
    sub64 left right = left - right := by
  simp [sub64, noWrap]

/-- `SECTOR_SIZE`, the size of one ring slot. -/
def sectorSize : Nat := 512

/-- `PAGE_SIZE`. -/
def pageSize : Nat := 4096

/-- `HEADER_SIZE`: the file header takes exactly one sector. -/
def headerSize : Nat := sectorSize

/-- `RING_OFFSET`: slot 0 starts right after the header. -/
def ringOffset : Nat := headerSize

/-- `ENTRY_META_SIZE`, the packed entry header in front of a command. -/
def entryMetaSize : Nat := 32

/-- `SLOTS_PER_PAGE`. -/
def slotsPerPage : Nat := pageSize / sectorSize

/-- `DEFAULT_NUM_PAGES`, a ring of 32 GiB. -/
def defaultNumPages : Nat := 8 * 1024 * 1024

/-- `DEFAULT_MAX_AE_BATCH`. -/
def defaultMaxAeBatch : Nat := 1000000

/-- `DEFAULT_MAX_AE_BATCH_BYTES`, 5 GiB. -/
def defaultMaxAeBatchBytes : Nat := 5 * 1024 * 1024 * 1024

/-- `align_up`. -/
def alignUp (n align : Nat) : Nat :=
  (n + align - 1) / align * align

theorem le_alignUp
    (bytes : Nat)
    {align : Nat}
    (positive : 0 < align) :
    bytes ≤ alignUp bytes align := by
  unfold alignUp
  have cut := Nat.div_add_mod (bytes + align - 1) align
  have rest := Nat.mod_lt (bytes + align - 1) positive
  rw [Nat.mul_comm] at cut
  omega

/--
`Entry`.  The shared commit signal is the state of the object the pointer
refers to (`some signaled`), or `none` once `apply_pending` dropped it.  The
result sink is the identity of the collector that waits for the result.
-/
structure Entry where
  command : List UInt8 := []
  term : Nat := 0
  resultSink : Option Nat := none
  committed : Option Bool := some false
  ringSlot : Nat := 0
  cmdLen : Nat := 0
  deriving Repr, DecidableEq

/-- `EntryMeta`. -/
structure EntryMeta where
  term : Nat
  cmdLen : Nat
  deriving Repr, DecidableEq

/-- `RequestVoteRequest`. -/
structure RequestVoteRequest where
  term : Nat
  candidateId : Nat
  lastLogIndex : Nat
  lastLogTerm : Nat
  deriving Repr, DecidableEq

/-- `RequestVoteResponse`. -/
structure RequestVoteResponse where
  term : Nat
  voteGranted : Bool
  deriving Repr, DecidableEq

/-- `AppendEntriesRequest`. -/
structure AppendEntriesRequest where
  term : Nat
  leaderId : Nat
  prevLogIndex : Nat
  prevLogTerm : Nat
  leaderCommit : Nat
  leaderPbaSrc : Nat
  logBlockLength : Nat
  numEntries : Nat
  slotsPerEntry : Nat
  startSlot : Nat
  leaderDevIndex : Nat
  dataAlreadyCopied : Bool := false
  entryMetas : List EntryMeta
  deriving Repr, DecidableEq

/-- `AppendEntriesResponse`, without its timing fields. -/
structure AppendEntriesResponse where
  term : Nat
  success : Bool := false
  conflictTerm : Nat := 0
  conflictIndex : Nat := 0
  deriving Repr, DecidableEq

/-- `ServerState`. -/
inductive ServerState where
  | leader
  | follower
  | candidate
  deriving Repr, DecidableEq

/-- `LogEntryState`. -/
inductive LogEntryState where
  | free
  | using
  deriving Repr, DecidableEq

/-- `SlotRecord`: the ring slots one log entry occupies. -/
structure SlotRecord where
  start : Nat
  numSlots : Nat
  state : LogEntryState
  deriving Repr, DecidableEq

/-- `ClusterMember`, the fields the consensus code reads. -/
structure ClusterMember where
  id : Nat
  nextIndex : Nat := 0
  matchIndex : Nat := 0
  votedFor : Nat := 0
  inflight : Bool := false
  deriving Repr, DecidableEq

/-- `RaftState`. -/
structure RaftState where
  currentTerm : Nat := 0
  log : List Entry := []
  id : Nat
  commitIndex : Nat := 0
  lastApplied : Nat := 0
  state : ServerState := .follower
  cluster : List ClusterMember
  clusterIndex : Nat
  deriving Repr, DecidableEq

/-- `log_slot_map`: log index to slot record. -/
abbrev SlotMap := AList (fun _ : Nat => SlotRecord)

/-- `AlignedBuffer`: the bytes in use and the allocated capacity. -/
structure AlignedBuffer where
  data : List UInt8 := []
  capacity : Nat := 0
  deriving Repr, DecidableEq

/-- `RingLog`. -/
structure RingLog where
  tailLogIndex : Nat := 0
  tailSlot : Nat := 0
  headSlot : Nat := 0
  gcUpTo : Nat := 0
  gcHasRun : Bool := false
  logSlotMap : SlotMap := ∅
  runBuf : AlignedBuffer := {}
  persistedInit : Bool := false
  persistedTerm : Nat := 0
  persistedVotedFor : Nat := 0
  numPages : Nat := defaultNumPages
  totalSlots : Nat := defaultNumPages * slotsPerPage
  ringSlots : Nat := defaultNumPages * slotsPerPage - 1
  logTrimThreshold : Nat := 8192

/-- `Extent`: one contiguous physical run of the ring file. -/
structure Extent where
  logical : Nat
  physical : Nat
  length : Nat
  deriving Repr, DecidableEq

/-- How one `write_at_file` call ends. -/
inductive WriteOutcome where
  | done
  /-- The call throws after the first `landed` bytes reached the file. -/
  | fails (landed : Nat)
  deriving Repr, DecidableEq

/--
The outcomes of the coming I/O calls, in order; `syncs` says which `fdatasync`
calls succeed.  Once a list is used up every further call succeeds.
-/
structure IoOutcomes where
  writes : List WriteOutcome := []
  syncs : List Bool := []
  deriving Repr, DecidableEq

/--
The term and vote in memory at a normal return of `persist_circular`, with the
sixteen header bytes that were on stable storage at that moment.
-/
structure PersistReturn where
  term : Nat
  votedFor : Nat
  stableHeader : List UInt8
  deriving Repr, DecidableEq

/--
`StorageIo` and the `CachedFD` it owns: the ring file as reads see it, the
contents the last successful `fdatasync` made stable, and the extents that
`init_storage` caches before anything else uses the file.  The outcomes of the
coming I/O calls are an input; the last two fields are history variables.
-/
structure StorageIo where
  file : ByteImage := ByteImage.zeros
  fileSize : Nat := 0
  stable : ByteImage := ByteImage.zeros
  extents : List Extent := []
  outcomes : IoOutcomes := {}
  headerWrites : List (Nat × Nat) := []
  persistReturns : List PersistReturn := []

/-- `Server::ReplicationMode`. -/
inductive ReplicationMode where
  | destinationSide
  | leaderSide
  deriving Repr, DecidableEq

/--
`Server`.  The state machine is represented by the commands passed to it, and
the calls of result sinks by the sink and the command whose result it got.
-/
structure Server where
  raft : RaftState
  ring : RingLog := {}
  io : StorageIo := {}
  maxAeBatch : Nat := defaultMaxAeBatch
  maxAeBatchBytes : Nat := defaultMaxAeBatchBytes
  replicationMode : ReplicationMode := .destinationSide
  statemachine : List (List UInt8) := []
  results : List (Nat × List UInt8) := []

/-- The exceptions the modelled operations throw. -/
inductive Exn where
  | writeAtFile
  | fdatasync
  | noExtentCovers
  | offsetPastExtent
  | holeInRingFile
  | createRingFile
  | ringFileTooSmall
  | deviceIsEmpty
  | fiemapFailed
  | readAtFile
  deriving Repr, DecidableEq

/--
One lock section of the server: it reads and changes the state and may leave
by an exception, which keeps every change made before it.
-/
abbrev Section := EStateM Exn Server

end NvmeofRaft
