import NvmeofRaft.Configuration
import NvmeofRaft.ExtentMap

namespace NvmeofRaft

/-!
# Block copy

`do_pba_copy` (`raft_handle_append_entries.cpp`): the destination of a batch,
cut into chunks at the ends of the extents, at the ring end and at
`MaxPBACopyChunkBytes`, and handed to the block copy service in one call.  The
chunks are cut with the extent map and the ring size of the node that runs the
function.
-/

/-- `MaxPBACopyChunkBytes`. -/
def maxPbaCopyChunkBytes : Nat :=
  256 * 1024 * 1024

/-- One chunk of a batch: device addresses and bytes. -/
structure PbaChunk where
  src : Nat
  dst : Nat
  nbytes : Nat
  deriving Repr, DecidableEq

/-- The exceptions of the chunk loop. -/
inductive CopyExn where
  | lookup (exn : Exn)
  | holeInRingFile
  | zeroSizeChunk
  deriving Repr, DecidableEq

/-- The part of a node that resolves ring slots. -/
structure RingLayout where
  ringSlots : Nat
  extents : List Extent
  deriving Repr, DecidableEq

namespace RingLayout

/-- The chunk at a slot: its device address and its size. -/
def chunkAt
    (layout : RingLayout)
    (slot remaining : Nat) :
    Except CopyExn (Nat × Nat) :=
  match lookup layout.extents (slotOffset slot) remaining with
  | .error exn => .error (.lookup exn)
  | .ok segment =>
      if segment.pba = 0 then
        .error .holeInRingFile
      else
        let maxBeforeWrap := (layout.ringSlots - slot) * sectorSize
        let chunk :=
          min (min (min segment.len remaining) maxBeforeWrap)
            maxPbaCopyChunkBytes
        if chunk = 0 then
          .error .zeroSizeChunk
        else
          .ok (segment.pba, chunk)

/-- The slot itself, or the first one behind the ring end. -/
def wrap
    (layout : RingLayout)
    (slot : Nat) :
    Nat :=
  if layout.ringSlots ≤ slot then 0 else slot

theorem chunkAt_pos
    {layout : RingLayout}
    {slot remaining pba chunk : Nat}
    (cut : layout.chunkAt slot remaining = .ok (pba, chunk)) :
    0 < chunk ∧ chunk ≤ remaining := by
  unfold chunkAt at cut
  split at cut
  · cases cut
  · split at cut
    · cases cut
    · dsimp only at cut
      split at cut
      · cases cut
      · rename_i positive
        cases cut
        constructor
        · exact Nat.pos_of_ne_zero positive
        · omega

/-- Pass 1 of `do_pba_copy`. -/
def chunks
    (layout : RingLayout)
    (remaining slot src : Nat) :
    Except CopyExn (List PbaChunk) :=
  if remaining = 0 then
    .ok []
  else
    match cut : layout.chunkAt (layout.wrap slot) remaining with
    | .error exn => .error exn
    | .ok (pba, chunk) =>
        have := chunkAt_pos cut
        (layout.chunks (remaining - chunk)
          (layout.wrap slot + chunk / sectorSize) (src + chunk)).map fun rest =>
            { src, dst := pba, nbytes := chunk } :: rest
termination_by remaining

theorem chunks_zero
    (layout : RingLayout)
    (slot src : Nat) :
    layout.chunks 0 slot src = .ok [] := by
  rw [chunks, if_pos rfl]

/-- One turn of the loop. -/
theorem chunks_step
    {layout : RingLayout}
    {remaining : Nat}
    (more : remaining ≠ 0)
    (slot src : Nat) :
    layout.chunks remaining slot src =
      (layout.chunkAt (layout.wrap slot) remaining).bind fun found =>
        (layout.chunks (remaining - found.2)
          (layout.wrap slot + found.2 / sectorSize) (src + found.2)).map
            fun rest => { src, dst := found.1, nbytes := found.2 } :: rest := by
  rw [chunks, if_neg more]
  split
  · rename_i failed
    rw [failed]
    rfl
  · rename_i cut
    dsimp only
    rw [cut]
    rfl

/-- `do_pba_copy`, up to the call of the service. -/
def doPbaCopy
    (layout : RingLayout)
    (leaderPbaSrc logBlockLength dstSlot : Nat) :
    Except CopyExn (List PbaChunk) :=
  if leaderPbaSrc = 0 ∨ logBlockLength = 0 then
    .ok []
  else
    layout.chunks (alignUp (logBlockLength * sectorSize) pageSize) dstSlot
      leaderPbaSrc

/-- The two ring files are laid out alike, as far as their slots go. -/
structure Alike (first second : RingLayout) : Prop where
  ringSlots : first.ringSlots = second.ringSlots
  lookup :
    ∀ slot ≤ first.ringSlots, ∀ length,
      lookup first.extents (slotOffset slot) length =
        lookup second.extents (slotOffset slot) length

section

variable {first second : RingLayout}

theorem Alike.wrap
    (alike : first.Alike second)
    (slot : Nat) :
    first.wrap slot = second.wrap slot := by
  unfold RingLayout.wrap
  rw [alike.ringSlots]

theorem wrap_le
    (layout : RingLayout)
    (slot : Nat) :
    layout.wrap slot ≤ layout.ringSlots := by
  unfold RingLayout.wrap
  split
  · exact Nat.zero_le _
  · omega

/-- Layouts that are alike cut the same first chunk. -/
theorem Alike.chunkAt
    (alike : first.Alike second)
    {slot : Nat}
    (inRing : slot ≤ first.ringSlots)
    (remaining : Nat) :
    first.chunkAt slot remaining = second.chunkAt slot remaining := by
  unfold RingLayout.chunkAt
  rw [alike.lookup slot inRing, alike.ringSlots]

/-- Layouts that are alike cut a copy into the same chunks. -/
theorem Alike.chunks
    (alike : first.Alike second)
    (remaining slot src : Nat) :
    first.chunks remaining slot src = second.chunks remaining slot src := by
  induction remaining using Nat.strong_induction_on generalizing slot src with
  | h remaining inductionHypothesis =>
      by_cases done : remaining = 0
      · rw [done, chunks_zero, chunks_zero]
      · rw [chunks_step done, chunks_step done, ← alike.wrap,
          ← alike.chunkAt (wrap_le first slot)]
        cases cut : first.chunkAt (first.wrap slot) remaining with
        | error exn =>
            rfl
        | ok found =>
            have bounds := chunkAt_pos cut
            have smaller : remaining - found.2 < remaining := by omega
            simp only [Except.bind, inductionHypothesis _ smaller]

/-- Alike layouts give the same chunks. -/
theorem Alike.doPbaCopy
    (alike : first.Alike second)
    (leaderPbaSrc logBlockLength dstSlot : Nat) :
    first.doPbaCopy leaderPbaSrc logBlockLength dstSlot =
      second.doPbaCopy leaderPbaSrc logBlockLength dstSlot := by
  unfold RingLayout.doPbaCopy
  rw [alike.chunks]

end

end RingLayout

/-- The volumes of the members, by cluster index. -/
abbrev Devices := Nat → ByteImage

/-- Copy one chunk from one device to another. -/
def Devices.copyChunk
    (devices : Devices)
    (srcDev dstDev : Nat)
    (chunk : PbaChunk) :
    Devices :=
  Function.update devices dstDev
    ((devices dstDev).write chunk.dst
      ((devices srcDev).read chunk.src chunk.nbytes))

/-- `write_pba_batch`: exactly the chunks of the batch are copied. -/
def Devices.writePbaBatch
    (devices : Devices)
    (srcDev dstDev : Nat)
    (chunks : List PbaChunk) :
    Devices :=
  chunks.foldl (fun devices chunk => devices.copyChunk srcDev dstDev chunk)
    devices

/-- The device address of a byte of the ring file. -/
def physicalAt
    (extents : List Extent)
    (logical : Nat) :
    Option Nat :=
  (coveringExtent extents logical).map fun extent =>
    extent.physical + (logical - extent.logical)

/-- What a ring slot holds on a device. -/
def RingLayout.slotBytes
    (layout : RingLayout)
    (device : ByteImage)
    (slot : Nat) :
    List (Option UInt8) :=
  (List.range sectorSize).map fun offset =>
    (physicalAt layout.extents (slotOffset slot + offset)).map device

/-- The layout of a node's ring file. -/
def Server.layout (server : Server) : RingLayout where
  ringSlots := server.ring.ringSlots
  extents := server.io.extents

/-- The layout is part of what consensus leaves alone. -/
def Ground.layout (ground : Ground) : RingLayout where
  ringSlots := ground.configuration.ringSlots
  extents := ground.io.extents

theorem layout_unaffected :
    Unaffected Server.layout where
  header :=
    (persistCircular_frames false 0).coarsen Server.layout fun _ => rfl
  demote server msgTerm :=
    congrArg Ground.layout (demote_ground server msgTerm)
  startElection server :=
    congrArg Ground.layout (startElection_ground server)
  setVotedFor server vote :=
    congrArg Ground.layout (setVotedFor_ground server vote)
  recordVote server peerIndex :=
    congrArg Ground.layout (recordVote_ground server peerIndex)
  stepDown server req :=
    congrArg Ground.layout
      (ground_of_besidesLog (stepDown_besidesLog server req))
  tailSlot _ _ := rfl
  buildLog server req newTail skipEntries :=
    congrArg Ground.layout
      (ground_of_besidesLog
        (buildLog_besidesLog server req newTail skipEntries))
  followCommit _ _ := rfl
  clampNext server fi :=
    congrArg Ground.layout (clampNext_ground server fi)
  setInflight server fi inflight :=
    congrArg Ground.layout (setInflight_ground server fi inflight)
  bookAnswer server fi call answer :=
    congrArg Ground.layout (bookAnswer_ground server fi call answer)
  commitTo server majorityIdx :=
    congrArg Ground.layout
      (ground_of_besidesLog (commitTo_besidesLog server majorityIdx))
  applyCommitted server :=
    congrArg Ground.layout
      (ground_of_besidesLog (applyCommitted_besidesLog server))

end NvmeofRaft
