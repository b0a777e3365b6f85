import NvmeofRaft.Persist

namespace NvmeofRaft

/-!
# The run buffer in memory

`AlignedBuffer` as a block of memory: the bytes behind the size are whatever
earlier calls left there, and `persist_circular` writes an entry into it field
by field.  The bytes in use are those of the buffer model.
-/

/-- The slots an entry takes. -/
def Entry.needed (entry : Entry) : Nat :=
  slotsForEntry entry.command.length

/-- An entry and its header fit in its slots. -/
theorem Entry.fits
    (entry : Entry) :
    entryMetaSize + entry.command.length ≤ entry.needed * sectorSize := by
  unfold Entry.needed slotsForEntry entryMetaSize sectorSize
  omega

/-- An encoded entry fills its slots. -/
theorem encodeEntry_length
    (entry : Entry)
    (logIdx : Nat) :
    (encodeEntry entry entry.needed logIdx).length =
      entry.needed * sectorSize := by
  have fits := entry.fits
  have header : entryMetaSize = 32 := rfl
  simp only [encodeEntry, List.length_append, length_putU64Le,
    List.length_replicate]
  omega

/-- The members of `AlignedBuffer`; the bytes from `size` on are stale. -/
structure MemoryBlock where
  bytes : ByteImage
  size : Nat
  capacity : Nat
  fits : size ≤ capacity

namespace MemoryBlock

/-- The bytes in use, and the capacity. -/
def buffer (block : MemoryBlock) : AlignedBuffer where
  data := block.bytes.read 0 block.size
  capacity := block.capacity

/-- `AlignedBuffer::clear`. -/
def clear (block : MemoryBlock) : MemoryBlock :=
  { block with
    size := 0
    fits := Nat.zero_le _ }

/--
`AlignedBuffer::resize`: beyond the capacity a zeroed block takes over the bytes
in use; within it only the bytes that come into use are zeroed.
-/
def resize
    (block : MemoryBlock)
    (newSize : Nat) :
    MemoryBlock :=
  if grows : block.capacity < newSize then
    { bytes := fun position =>
        if position < block.size then block.bytes position else 0
      size := newSize
      capacity := alignUp newSize sectorSize
      fits := le_alignUp newSize (by decide) }
  else
    { block with
      bytes := block.bytes.write block.size
        (List.replicate (newSize - block.size) 0)
      size := newSize
      fits := Nat.le_of_not_lt grows }

/-- Write bytes into the block. -/
def store
    (block : MemoryBlock)
    (offset : Nat)
    (data : List UInt8) :
    MemoryBlock :=
  { block with bytes := block.bytes.write offset data }

/-- The body of the entry loop that fills in one entry behind the others. -/
def appendEntry
    (block : MemoryBlock)
    (entry : Entry)
    (needed logIdx : Nat) :
    MemoryBlock :=
  let entryBytes := needed * sectorSize
  let off := block.size
  let padStart := entryMetaSize + entry.command.length
  (block.resize (off + entryBytes))
    |>.store off (putU64Le entry.term)
    |>.store (off + 8) (putU64Le entry.command.length)
    |>.store (off + 16) (putU64Le needed)
    |>.store (off + 24) (putU64Le logIdx)
    |>.store (off + entryMetaSize) entry.command
    |>.store (off + padStart) (List.replicate (entryBytes - padStart) 0)

@[simp] theorem store_size
    (block : MemoryBlock)
    (offset : Nat)
    (data : List UInt8) :
    (block.store offset data).size = block.size :=
  rfl

@[simp] theorem resize_size
    (block : MemoryBlock)
    (newSize : Nat) :
    (block.resize newSize).size = newSize := by
  unfold resize
  split
  · rfl
  · rfl

/-- Stores one behind the other are one store. -/
theorem store_append
    (block : MemoryBlock)
    (offset : Nat)
    (first second : List UInt8) :
    (block.store offset first).store (offset + first.length) second =
      block.store offset (first ++ second) := by
  unfold store
  rw [ByteImage.write_append]

/-- Clearing forgets the size only. -/
theorem buffer_clear
    (block : MemoryBlock) :
    block.clear.buffer = block.buffer.clear :=
  rfl

/-- The bytes in use are kept. -/
theorem resize_kept
    (block : MemoryBlock)
    (newSize : Nat)
    {position : Nat}
    (inUse : position < block.size) :
    (block.resize newSize).bytes position = block.bytes position := by
  unfold resize
  split
  · exact if_pos inUse
  · exact ByteImage.write_of_lt inUse

/-- The capacity grows as that of the buffer model. -/
theorem resize_capacity
    (block : MemoryBlock)
    (newSize : Nat) :
    (block.resize newSize).capacity =
      (block.buffer.resize newSize).capacity := by
  unfold resize AlignedBuffer.resize
  split
  · rename_i grows
    exact (if_pos grows).symm
  · rename_i keeps
    exact (if_neg keeps).symm

/-- The stores of one entry are one store of its encoding. -/
theorem appendEntry_stores
    (block : MemoryBlock)
    (entry : Entry)
    (needed logIdx : Nat) :
    block.appendEntry entry needed logIdx =
      (block.resize (block.size + needed * sectorSize)).store block.size
        (encodeEntry entry needed logIdx) := by
  have one := (block.resize (block.size + needed * sectorSize)).store_append
    block.size
  unfold appendEntry encodeEntry
  dsimp only
  rw [← one, ← one, ← one, ← one, ← one]
  simp only [List.length_append, length_putU64Le]
  rfl

/--
The entry loop appends the encoded entry to the bytes in use; no byte of an
earlier call shows.
-/
theorem buffer_appendEntry
    (block : MemoryBlock)
    (entry : Entry)
    (logIdx : Nat) :
    (block.appendEntry entry entry.needed logIdx).buffer =
      { data := block.buffer.data ++ encodeEntry entry entry.needed logIdx
        capacity :=
          (block.buffer.resize
            (block.buffer.size + entry.needed * sectorSize)).capacity } := by
  have size : block.buffer.size = block.size :=
    ByteImage.length_read _ _ _
  have earlier :
      ((block.resize (block.size + entry.needed * sectorSize)).bytes.write
          block.size (encodeEntry entry entry.needed logIdx)).read 0
          block.size =
        block.bytes.read 0 block.size := by
    rw [ByteImage.read_write_of_le (Nat.le_refl _)]
    apply ByteImage.read_congr
    intro position _ inUse
    exact block.resize_kept _ (Nat.zero_add block.size ▸ inUse)
  have added :=
    ByteImage.read_write_self
      (block.resize (block.size + entry.needed * sectorSize)).bytes
      block.size (encodeEntry entry entry.needed logIdx)
  rw [encodeEntry_length] at added
  rw [appendEntry_stores, size, ← resize_capacity]
  unfold buffer
  rw [store_size, resize_size, ByteImage.read_add, Nat.zero_add]
  unfold store
  rw [earlier, added]

/-- Entries with their indices, filled in one behind the other. -/
def appendEntries
    (block : MemoryBlock)
    (items : List (Entry × Nat)) :
    MemoryBlock :=
  items.foldl
    (fun block item => block.appendEntry item.1 item.1.needed item.2) block

/-- Entries are added to the bytes in use, whatever is behind these. -/
theorem appendEntries_data
    (items : List (Entry × Nat)) :
    ∀ block : MemoryBlock,
      (block.appendEntries items).buffer.data =
        block.buffer.data ++
          items.flatMap fun item =>
            encodeEntry item.1 item.1.needed item.2 := by
  induction items with
  | nil =>
      intro block
      exact (List.append_nil _).symm
  | cons item items inductionHypothesis =>
      intro block
      have first :
          (block.appendEntry item.1 item.1.needed item.2).buffer.data = _ :=
        congrArg AlignedBuffer.data (block.buffer_appendEntry item.1 item.2)
      have rest := inductionHypothesis
        (block.appendEntry item.1 item.1.needed item.2)
      rw [first, List.append_assoc] at rest
      exact rest

end MemoryBlock

/--
The reused buffer leaks nothing.  A block of memory that has been cleared holds
the encodings of the entries that are filled in, one behind the other, and no
byte of an earlier use; and each turn of the entry loop fills in one entry.
-/
theorem run_buffer_holds_entries
    (block : MemoryBlock) :
    (∀ items : List (Entry × Nat),
      (block.clear.appendEntries items).buffer.data =
        items.flatMap fun item =>
          encodeEntry item.1 item.1.needed item.2) ∧
      ∀ (server : Server) (entry : Entry) (logIdx runOff : Nat),
        wp (placeEntry entry entry.needed logIdx runOff)
          (fun _ final =>
            final.ring.runBuf =
              (block.appendEntry entry entry.needed logIdx).buffer)
          (fun _ _ => False)
          { server with
            ring := { server.ring with runBuf := block.buffer } } := by
  constructor
  · intro items
    rw [MemoryBlock.appendEntries_data, MemoryBlock.buffer_clear]
    exact List.nil_append _
  · intro server entry logIdx runOff
    simp only [placeEntry, modifyRing, wp_bind, wp_get, wp_ite, wp_pure,
      wp_modify, block.buffer_appendEntry]
    split
    · trivial
    · trivial

end NvmeofRaft
