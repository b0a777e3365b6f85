import NvmeofRaft.RingAllocator
import NvmeofRaft.RunBuffer
import NvmeofRaft.Unfailing

namespace NvmeofRaft

/-!
# Coalesced runs

`persist_circular` collects entries in one reused buffer and writes a run when
the ring wraps, when it skips the end of an extent and at the end.  What it
leaves in the file is what writing entry by entry would leave, over any extent
layout.
-/

/-- The extent skip in front of an entry, with the extent hint. -/
def skipAhead
    (ringSlots : Nat)
    (extents : List Extent)
    (needed slot : Nat)
    (hint : Int) :
    Nat × Int :=
  if extents.length ≤ 1 then
    (slot, hint)
  else
    let found := remainingAt extents (slotOffset slot) hint
    if found.1 < needed * sectorSize then
      let skipped :=
        wrapSlot ringSlots (slot + found.1 / sectorSize) needed
      (skipped, (remainingAt extents (slotOffset skipped) found.2).2)
    else
      (slot, found.2)

/-- The slot the allocator gives an entry, and the next extent hint. -/
def allocate
    (ringSlots : Nat)
    (extents : List Extent)
    (needed : Nat)
    (cursor : Nat × Int) :
    Nat × Int :=
  skipAhead ringSlots extents needed (wrapSlot ringSlots cursor.1 needed)
    cursor.2

/-- The start slots of entries that are allocated one after the other. -/
def allocateAll
    (ringSlots : Nat)
    (extents : List Extent) :
    List Entry → Nat × Int → List Nat
  | [], _ =>
      []
  | entry :: rest, cursor =>
      let placed := allocate ringSlots extents entry.needed cursor
      placed.1 ::
        allocateAll ringSlots extents rest
          (placed.1 + entry.needed, placed.2)

/-- Write each entry on its own, in log order, at its start slot. -/
def writeEntries :
    List (Entry × Nat) → Nat → ByteImage → ByteImage
  | [], _, file =>
      file
  | (entry, slot) :: rest, logIdx, file =>
      writeEntries rest (logIdx + 1)
        (file.write (slotOffset slot) (encodeEntry entry entry.needed logIdx))

/-- Record each entry at its start slot. -/
def recordEntries :
    List (Entry × Nat) → Nat → SlotMap → SlotMap
  | [], _, slots =>
      slots
  | (entry, slot) :: rest, logIdx, slots =>
      recordEntries rest (logIdx + 1)
        (slots.insert logIdx
          { start := slot, numSlots := entry.needed, state := .using })

/--
Writing the buffer at the run offset leaves the image, and the run ends at the
tail slot.
-/
structure Server.Buffers
    (server : Server)
    (runOff : Nat)
    (image : ByteImage) : Prop where
  succeeds : server.Succeeds
  flushed : server.io.file.write runOff server.ring.runBuf.data = image
  atTail :
    server.ring.runBuf.data ≠ [] →
    runOff + server.ring.runBuf.size = slotOffset server.ring.tailSlot

section

variable {server : Server} {runOff : Nat} {image : ByteImage}

/-- With an empty buffer the image is the file. -/
theorem Server.Buffers.of_empty
    (succeeds : server.Succeeds)
    (file : server.io.file = image)
    (empty : server.ring.runBuf.data = []) :
    server.Buffers runOff image := by
  refine ⟨succeeds, ?_, fun nonempty => absurd empty nonempty⟩
  rw [empty, ByteImage.write_nil, file]

/-- A write that succeeds is in the file. -/
theorem writeAtFile_done
    (succeeds : server.Succeeds)
    (data : List UInt8)
    (offset : Nat) :
    wp (writeAtFile data offset)
      (fun _ final =>
        final.Succeeds ∧
          final.io.file = server.io.file.write offset data ∧
            final.ring = server.ring ∧ final.raft = server.raft ∧
              final.io.extents = server.io.extents)
      (fun _ _ => False) server := by
  obtain ⟨done, succeed⟩ := IoOutcomes.succeed_write succeeds
  simp only [writeAtFile, nextWriteOutcome, wp_bind, wp_get, wp_modify,
    wp_pure, done]
  exact ⟨succeed, trivial, trivial, trivial, trivial⟩

/-- A flush leaves the image in the file and the buffer empty. -/
theorem flushRun_flushes
    (buffers : server.Buffers runOff image) :
    wp (flushRun runOff)
      (fun _ final =>
        final.Succeeds ∧ final.io.file = image ∧
          final.ring.runBuf.data = [] ∧
            final.ringView = server.ringView ∧ final.raft = server.raft)
      (fun _ _ => False) server := by
  have flushed := buffers.flushed
  simp only [flushRun, modifyRing, wp_bind, wp_get, wp_ite, wp_pure,
    wp_modify]
  split
  · rename_i empty
    have nothing := List.isEmpty_iff.mp empty
    rw [nothing, ByteImage.write_nil] at flushed
    exact ⟨buffers.succeeds, flushed, nothing, trivial, trivial⟩
  · refine wp_mono (writeAtFile_done buffers.succeeds _ _) ?_
      fun _ _ never => never
    rintro _ final ⟨succeeds, file, ring, raft, extents⟩
    refine ⟨succeeds, file.trans flushed, rfl, ?_, raft⟩
    simp only [Server.ringView, ring, extents]

/-- What the allocator leaves in front of an entry. -/
structure Server.Allocated
    (server : Server)
    (runOff : Nat)
    (image : ByteImage)
    (slot : Nat)
    (before : Server) : Prop where
  buffers : server.Buffers runOff image
  sameRaft : server.raft = before.raft
  sameRing : server.ringView = { before.ringView with tailSlot := slot }

/-- Wrapping allocates the wrapped slot. -/
theorem wrapTail_allocates
    (buffers : server.Buffers runOff image)
    (needed : Nat) :
    wp (wrapTail needed runOff)
      (fun off final =>
        final.Allocated off image
          (wrapSlot server.ring.ringSlots server.ring.tailSlot needed) server)
      (fun _ _ => False) server := by
  simp only [wrapTail, modifyRing, wp_bind, wp_get, wp_ite, wp_pure,
    wp_modify]
  split
  · rename_i wraps
    refine wp_mono (flushRun_flushes buffers) ?_ fun _ _ never => never
    rintro off final ⟨succeeds, file, empty, ring, raft⟩
    refine ⟨.of_empty succeeds file empty, raft, ?_⟩
    rw [wrapSlot, if_pos wraps, ← ring]
    rfl
  · rename_i fits
    refine ⟨buffers, rfl, ?_⟩
    rw [wrapSlot, if_neg fits]
    rfl

/-- Skipping allocates a slot behind the extent end. -/
theorem skipExtentEnd_allocates
    (buffers : server.Buffers runOff image)
    (needed : Nat)
    (hint : Int) :
    wp (skipExtentEnd needed runOff hint)
      (fun cursor final =>
        cursor.2 = (skipAhead server.ring.ringSlots server.io.extents needed
          server.ring.tailSlot hint).2 ∧
        final.Allocated cursor.1 image
          (skipAhead server.ring.ringSlots server.io.extents needed
            server.ring.tailSlot hint).1 server)
      (fun _ _ => False) server := by
  simp only [skipExtentEnd, modifyRing, wp_bind, wp_get, wp_ite, wp_pure,
    wp_modify, StorageIo.isContiguous, decide_eq_true_eq, skipAhead]
  split_ifs with contiguous short
  · exact ⟨rfl, buffers, rfl, rfl⟩
  · refine wp_mono (flushRun_flushes buffers) ?_ fun _ _ never => never
    rintro off final ⟨succeeds, file, empty, ring, raft⟩
    have sameTail : final.ring.tailSlot = server.ring.tailSlot :=
      congrArg RingView.tailSlot ring
    have sameSlots : final.ring.ringSlots = server.ring.ringSlots :=
      congrArg RingView.ringSlots ring
    have sameExtents : final.io.extents = server.io.extents :=
      congrArg RingView.extents ring
    refine ⟨?_, .of_empty succeeds file empty, raft, ?_⟩
    · rw [sameTail, sameSlots, sameExtents]
      rfl
    · rw [← ring, wrapSlot, ← sameTail, ← sameSlots]
      rfl
  · exact ⟨rfl, buffers, rfl, rfl⟩

/-- Where an entry has been placed and what the buffer then stands for. -/
structure Server.Placed
    (server : Server)
    (runOff : Nat)
    (image : ByteImage)
    (entry : Entry)
    (logIdx slot : Nat)
    (before : Server) : Prop where
  buffers :
    server.Buffers runOff
      (image.write (slotOffset slot) (encodeEntry entry entry.needed logIdx))
  sameRaft : server.raft = before.raft
  sameRing :
    server.ringView =
      { before.ringView with
        slots :=
          if before.raft.state = .leader then
            before.ring.logSlotMap.insert logIdx
              { start := slot, numSlots := entry.needed, state := .using }
          else
            before.ring.logSlotMap
        tailSlot := slot + entry.needed }

/-- The offset of the run that an entry starts or goes on. -/
def Server.runStart
    (server : Server)
    (runOff : Nat) :
    Nat :=
  if server.ring.runBuf.data.isEmpty then
    slotOffset server.ring.tailSlot
  else
    runOff

/-- The buffered run ends at the tail. -/
theorem Server.Buffers.runStart_ends
    (buffers : server.Buffers runOff image) :
    server.runStart runOff + server.ring.runBuf.size =
      slotOffset server.ring.tailSlot := by
  unfold Server.runStart
  split
  · rename_i empty
    rw [AlignedBuffer.size, List.isEmpty_iff.mp empty]
    rfl
  · rename_i nonempty
    exact buffers.atTail fun nothing =>
      nonempty (List.isEmpty_iff.mpr nothing)

/-- Flushing the run gives the image. -/
theorem Server.Buffers.runStart_flushed
    (buffers : server.Buffers runOff image) :
    server.io.file.write (server.runStart runOff) server.ring.runBuf.data =
      image := by
  have flushed := buffers.flushed
  unfold Server.runStart
  split
  · rename_i empty
    rw [List.isEmpty_iff.mp empty, ByteImage.write_nil] at flushed ⊢
    exact flushed
  · exact flushed

/-- An entry goes behind the run, at the allocated slot. -/
theorem placeEntry_places
    (buffers : server.Buffers runOff image)
    (entry : Entry)
    (logIdx : Nat) :
    wp (placeEntry entry entry.needed logIdx runOff)
      (fun off final =>
        final.Placed off image entry logIdx server.ring.tailSlot server)
      (fun _ _ => False) server := by
  have ends := buffers.runStart_ends
  have grown :
      server.io.file.write (server.runStart runOff)
          (server.ring.runBuf.data ++
            encodeEntry entry entry.needed logIdx) =
        image.write (slotOffset server.ring.tailSlot)
          (encodeEntry entry entry.needed logIdx) := by
    rw [ByteImage.write_append, buffers.runStart_flushed, ← ends]
    rfl
  have atTail :
      server.runStart runOff +
          (server.ring.runBuf.data ++
            encodeEntry entry entry.needed logIdx).length =
        slotOffset (server.ring.tailSlot + entry.needed) := by
    rw [List.length_append, encodeEntry_length, ← Nat.add_assoc]
    unfold slotOffset at ends ⊢
    rw [Nat.add_mul, ← Nat.add_assoc, ← ends]
    rfl
  simp only [placeEntry, modifyRing, wp_bind, wp_get, wp_ite, wp_pure,
    wp_modify]
  split
  · rename_i leader
    refine ⟨⟨buffers.succeeds, grown, fun _ => atTail⟩, rfl, ?_⟩
    rw [if_pos leader]
    rfl
  · rename_i other
    refine ⟨⟨buffers.succeeds, grown, fun _ => atTail⟩, rfl, ?_⟩
    rw [if_neg other]
    rfl

/-- One turn of the entry loop allocates and places an entry. -/
theorem persistEntry_places
    (entry : Entry)
    (logIdx : Nat)
    (cursor : Nat × Int)
    (buffers : server.Buffers cursor.1 image) :
    wp (persistEntry entry logIdx cursor)
      (fun next final =>
        next.2 = (allocate server.ring.ringSlots server.io.extents
          entry.needed (server.ring.tailSlot, cursor.2)).2 ∧
        final.Placed next.1 image entry logIdx
          (allocate server.ring.ringSlots server.io.extents entry.needed
            (server.ring.tailSlot, cursor.2)).1 server)
      (fun _ _ => False) server := by
  simp only [persistEntry, wp_bind, wp_pure]
  refine wp_mono (wrapTail_allocates buffers _) ?_ fun _ _ never => never
  rintro off wrapped wrap
  refine wp_mono (skipExtentEnd_allocates wrap.buffers _ _) ?_
    fun _ _ never => never
  rintro skip skipped ⟨hint, skips⟩
  refine wp_mono (placeEntry_places skips.buffers entry logIdx) ?_
    fun _ _ never => never
  intro next placed places
  have wrapTail :
      wrapped.ring.tailSlot =
        wrapSlot server.ring.ringSlots server.ring.tailSlot entry.needed :=
    congrArg RingView.tailSlot wrap.sameRing
  have wrapSlots : wrapped.ring.ringSlots = server.ring.ringSlots :=
    congrArg RingView.ringSlots wrap.sameRing
  have wrapExtents : wrapped.io.extents = server.io.extents :=
    congrArg RingView.extents wrap.sameRing
  have skipRing := skips.sameRing
  rw [wrapTail, wrapSlots, wrapExtents] at hint skipRing
  rw [wrap.sameRing] at skipRing
  have skipRaft := skips.sameRaft.trans wrap.sameRaft
  have slot :
      skipped.ring.tailSlot =
        (allocate server.ring.ringSlots server.io.extents entry.needed
          (server.ring.tailSlot, cursor.2)).1 :=
    congrArg RingView.tailSlot skipRing
  have slots : skipped.ring.logSlotMap = server.ring.logSlotMap :=
    congrArg RingView.slots skipRing
  obtain ⟨placedBuffers, placedRaft, placedRing⟩ := places
  rw [slot] at placedBuffers placedRing
  rw [skipRing, skipRaft, slots] at placedRing
  exact ⟨hint, placedBuffers, placedRaft.trans skipRaft, placedRing⟩

/-- The loop leaves what allocating and writing entry by entry leaves. -/
theorem persistEntries_places :
    ∀ (entries : List Entry) (logIdx : Nat) (cursor : Nat × Int)
      {server : Server} {image : ByteImage},
      server.Buffers cursor.1 image →
      wp (persistEntries entries logIdx cursor)
        (fun last final =>
          final.Buffers last.1
              (writeEntries
                (entries.zip (allocateAll server.ring.ringSlots
                  server.io.extents entries
                  (server.ring.tailSlot, cursor.2)))
                logIdx image) ∧
            final.raft = server.raft ∧
              final.ring.logSlotMap =
                if server.raft.state = .leader then
                  recordEntries
                    (entries.zip (allocateAll server.ring.ringSlots
                      server.io.extents entries
                      (server.ring.tailSlot, cursor.2)))
                    logIdx server.ring.logSlotMap
                else
                  server.ring.logSlotMap)
        (fun _ _ => False) server := by
  intro entries
  induction entries with
  | nil =>
      intro logIdx cursor server image buffers
      exact ⟨buffers, rfl, (ite_self _).symm⟩
  | cons entry rest inductionHypothesis =>
      intro logIdx cursor server image buffers
      simp only [persistEntries, wp_bind]
      refine wp_mono (persistEntry_places entry logIdx cursor buffers) ?_
        fun _ _ never => never
      rintro next placed ⟨hint, places⟩
      refine wp_mono (inductionHypothesis _ _ places.buffers) ?_
        fun _ _ never => never
      rintro last final ⟨ends, raft, slots⟩
      have tail : placed.ring.tailSlot = _ :=
        congrArg RingView.tailSlot places.sameRing
      have ringSlots : placed.ring.ringSlots = server.ring.ringSlots :=
        congrArg RingView.ringSlots places.sameRing
      have extents : placed.io.extents = server.io.extents :=
        congrArg RingView.extents places.sameRing
      have map : placed.ring.logSlotMap = _ :=
        congrArg RingView.slots places.sameRing
      rw [tail, ringSlots, extents, hint] at ends slots
      rw [places.sameRaft, map] at slots
      refine ⟨ends, raft.trans places.sameRaft, slots.trans ?_⟩
      split
      · rfl
      · rfl

/-- The entries that a persist call writes. -/
def Server.freshEntries
    (server : Server)
    (count : Nat) :
    List Entry :=
  server.raft.log.drop (max 1 (server.raft.log.length - count))

/-- The entries with the slots that the allocator gives them. -/
def Server.placements
    (server : Server)
    (count : Nat) :
    List (Entry × Nat) :=
  (server.freshEntries count).zip
    (allocateAll server.ring.ringSlots server.io.extents
      (server.freshEntries count) (server.ring.tailSlot, 0))

/-- The file and the slot records of a persist call. -/
structure Server.Writes
    (before : Server)
    (count : Nat)
    (after : Server) : Prop where
  ringPart :
    ∀ position,
      headerSize ≤ position →
      after.io.file position =
        writeEntries (before.placements count) (before.firstPersisted count)
          before.io.file position
  slots :
    after.ring.logSlotMap =
      if before.raft.state = .leader then
        recordEntries (before.placements count) (before.firstPersisted count)
          before.ring.logSlotMap
      else
        before.ring.logSlotMap

/-- The entries are written where they have been allocated. -/
theorem persistLog_writes
    (succeeds : server.Succeeds)
    (count : Nat) :
    wp (persistLog count)
      (fun _ final => final.Succeeds ∧ server.Writes count final)
      (fun _ _ => False) server := by
  simp only [persistLog, modifyRing, wp_bind, wp_get, wp_modify, wp_discard]
  refine wp_mono (persistEntries_places _ _ _
    (.of_empty succeeds rfl ?_)) ?_ fun _ _ never => never
  · show (if _ then _ else _ : AlignedBuffer).data = []
    split
    · rfl
    · rfl
  · rintro last placed ⟨buffers, -, slots⟩
    refine wp_mono (flushRun_flushes buffers) ?_ fun _ _ never => never
    rintro _ final ⟨succeeds, file, -, ring, -⟩
    have map : final.ring.logSlotMap = placed.ring.logSlotMap :=
      congrArg RingView.slots ring
    exact ⟨succeeds, fun position _ => congrFun file position,
      map.trans slots⟩

theorem length_encodeHeader
    (server : Server) :
    (encodeHeader server).length = headerSize := by
  simp only [encodeHeader, List.length_append, length_putU64Le,
    List.length_replicate]
  rfl

/-- The header and the sync leave the ring part and the records alone. -/
theorem persistSync_keeps
    (succeeds : server.Succeeds)
    (logging : Bool) :
    wp (persistSync logging)
      (fun _ final =>
        (∀ position,
          headerSize ≤ position →
          final.io.file position = server.io.file position) ∧
          final.ring.logSlotMap = server.ring.logSlotMap)
      (fun _ _ => False) server := by
  have synced :
      ∀ {server : Server},
        server.Succeeds →
        wp fdatasync
          (fun _ final =>
            final.io.file = server.io.file ∧ final.ring = server.ring)
          (fun _ _ => False) server := by
    intro server succeeds
    obtain ⟨done, -⟩ := IoOutcomes.succeed_sync succeeds
    simp only [fdatasync, nextSyncOutcome, wp_bind, wp_get, wp_modify,
      wp_pure, done, if_true]
    exact ⟨trivial, trivial⟩
  simp only [persistSync, persistHeader, wp_bind, wp_get, wp_ite, wp_pure,
    wp_modify]
  split_ifs
  · refine wp_mono (writeAtFile_done succeeds _ _) ?_ fun _ _ never => never
    rintro _ written ⟨succeeds, file, ring, -, -⟩
    refine wp_mono (synced succeeds) ?_ fun _ _ never => never
    rintro _ final ⟨sameFile, sameRing⟩
    refine ⟨fun position behind => ?_, ?_⟩
    · have ends : 0 + (encodeHeader server).length ≤ position := by
        rw [length_encodeHeader, Nat.zero_add]
        exact behind
      refine (congrFun sameFile position).trans ?_
      show written.io.file position = _
      rw [file, ByteImage.write_of_ge ends]
    · refine (congrArg RingLog.logSlotMap sameRing).trans ?_
      show written.ring.logSlotMap = _
      rw [ring]
  · refine wp_mono (synced succeeds) ?_ fun _ _ never => never
    rintro _ final ⟨sameFile, sameRing⟩
    exact ⟨fun position _ => congrFun sameFile position,
      congrArg RingLog.logSlotMap sameRing⟩
  · exact ⟨fun _ _ => trivial, trivial⟩

/-- How many entries a call writes; a count of zero stands for all. -/
def Server.persistCount
    (server : Server)
    (nNewEntries : Nat) :
    Nat :=
  if nNewEntries = 0 then server.raft.log.length - 1 else nNewEntries

/-- A call that succeeds writes its entries and the header. -/
theorem persistCircular_writes
    (succeeds : server.Succeeds)
    (nNewEntries : Nat) :
    wp (persistCircular true nNewEntries)
      (fun _ final => server.Writes (server.persistCount nNewEntries) final)
      (fun _ _ => False) server := by
  have logged :
      ∀ count,
        wp (persistLog count)
          (fun _ logged =>
            wp (persistSync true)
              (fun _ final => server.Writes count (notePersistReturn final))
              (fun _ _ => False) logged)
          (fun _ _ => False) server := by
    intro count
    refine wp_mono (persistLog_writes succeeds count) ?_
      fun _ _ never => never
    rintro _ logged ⟨succeeds, writes⟩
    refine wp_mono (persistSync_keeps succeeds true) ?_
      fun _ _ never => never
    rintro _ final ⟨ringPart, slots⟩
    exact ⟨fun position behind =>
        (ringPart position behind).trans (writes.ringPart position behind),
      slots.trans writes.slots⟩
  have nothing :
      wp (persistSync false)
        (fun _ final => server.Writes 0 (notePersistReturn final))
        (fun _ _ => False) server := by
    have fresh : server.freshEntries 0 = [] :=
      List.drop_of_length_le (le_max_right _ _)
    have placements : server.placements 0 = [] := by
      rw [Server.placements, fresh, List.zip_nil_left]
    refine wp_mono (persistSync_keeps succeeds false) ?_
      fun _ _ never => never
    rintro _ final ⟨ringPart, slots⟩
    refine ⟨fun position behind => ?_, ?_⟩
    · rw [placements]
      exact ringPart position behind
    · rw [placements]
      exact slots.trans (ite_self _).symm
  unfold Server.persistCount
  by_cases all : nNewEntries = 0
  · simp only [persistCircular, wp_bind, wp_get, wp_modify, all, true_and,
      if_true, wp_ite]
    split
    · exact logged _
    · rename_i none
      rw [Nat.eq_zero_of_not_pos none]
      exact nothing
  · simp only [persistCircular, wp_bind, wp_get, wp_modify, all, false_and,
      if_false, true_and, Nat.pos_of_ne_zero all, if_true]
    exact logged _

/-- The call returns and has written its entries. -/
theorem persistCircular_returns_writes
    (succeeds : server.Succeeds)
    (nNewEntries : Nat) :
    ∃ after,
      (persistCircular true nNewEntries).run server = .ok () after ∧
        server.Writes (server.persistCount nNewEntries) after := by
  have writes := persistCircular_writes succeeds nNewEntries
  unfold wp at writes
  cases ran : (persistCircular true nNewEntries).run server with
  | error exn after =>
      rw [ran] at writes
      exact writes.elim
  | ok value after =>
      rw [ran] at writes
      exact ⟨after, rfl, writes⟩

/-- Records of other indices stay. -/
theorem recordEntries_front
    (placements : List (Entry × Nat)) :
    ∀ (logIdx : Nat) (slots : SlotMap) (other : Nat),
      other < logIdx ∨ logIdx + placements.length ≤ other →
      (recordEntries placements logIdx slots).lookup other =
        slots.lookup other := by
  induction placements with
  | nil =>
      intro logIdx slots other _
      rfl
  | cons first rest inductionHypothesis =>
      intro logIdx slots other outside
      rw [List.length_cons] at outside
      refine (inductionHypothesis (logIdx + 1) _ other (by omega)).trans ?_
      exact AList.lookup_insert_ne (by omega)

/-- Each entry's record names its start slot and its slot count. -/
theorem recordEntries_lookup
    (placements : List (Entry × Nat)) :
    ∀ (logIdx : Nat) (slots : SlotMap) (offset : Nat) (entry : Entry)
      (slot : Nat),
      placements[offset]? = some (entry, slot) →
      (recordEntries placements logIdx slots).lookup (logIdx + offset) =
        some { start := slot, numSlots := entry.needed, state := .using } := by
  induction placements with
  | nil =>
      intro logIdx slots offset entry slot found
      cases found
  | cons first rest inductionHypothesis =>
      intro logIdx slots offset entry slot found
      cases offset with
      | zero =>
          obtain rfl := Option.some.inj found
          refine (recordEntries_front rest (logIdx + 1) _ _
            (Or.inl (Nat.lt_succ_self logIdx))).trans ?_
          exact AList.lookup_insert _
      | succ offset =>
          rw [← Nat.add_assoc, Nat.add_right_comm]
          exact inductionHypothesis (logIdx + 1) _ offset entry slot found

theorem allocateAll_length
    (ringSlots : Nat)
    (extents : List Extent)
    (entries : List Entry) :
    ∀ cursor,
      (allocateAll ringSlots extents entries cursor).length =
        entries.length := by
  induction entries with
  | nil =>
      intro cursor
      rfl
  | cons entry rest inductionHypothesis =>
      intro cursor
      exact congrArg Nat.succ (inductionHypothesis _)

/--
Coalesced writing is writing entry by entry: over any extent layout, run buffer
and log, a `persist_circular` call whose I/O succeeds leaves in the ring part of
the file what writing each new entry on its own, in log order, at the slot of
the allocator leaves.  A leader then has exactly these slots on record under the
entries' indices and its other records as before; another node's records stay.
-/
theorem coalesced_equals_separate
    {nNewEntries count : Nat}
    (succeeds : server.Succeeds)
    (counted : server.persistCount nNewEntries = count) :
    ∃ after,
      (persistCircular true nNewEntries).run server = .ok () after ∧
        (∀ position,
          headerSize ≤ position →
          after.io.file position =
            writeEntries (server.placements count)
              (server.firstPersisted count) server.io.file position) ∧
        (server.placements count).map Prod.fst = server.freshEntries count ∧
        (server.raft.state = .leader →
          (∀ offset entry slot,
            (server.placements count)[offset]? = some (entry, slot) →
            after.ring.logSlotMap.lookup
                (server.firstPersisted count + offset) =
              some
                { start := slot, numSlots := entry.needed, state := .using }) ∧
          ∀ logIdx,
            logIdx < server.firstPersisted count ∨
              server.firstPersisted count +
                (server.freshEntries count).length ≤ logIdx →
            after.ring.logSlotMap.lookup logIdx =
              server.ring.logSlotMap.lookup logIdx) ∧
        (server.raft.state ≠ .leader →
          after.ring.logSlotMap = server.ring.logSlotMap) := by
  have whole :
      (allocateAll server.ring.ringSlots server.io.extents
        (server.freshEntries count) (server.ring.tailSlot, 0)).length =
        (server.freshEntries count).length :=
    allocateAll_length _ _ _ _
  have entries :
      (server.placements count).map Prod.fst = server.freshEntries count :=
    List.map_fst_zip (le_of_eq whole.symm)
  have length :
      (server.placements count).length =
        (server.freshEntries count).length := by
    rw [← entries, List.length_map]
  obtain ⟨after, ran, ringPart, slots⟩ :=
    persistCircular_returns_writes succeeds nNewEntries
  rw [counted] at ringPart slots
  refine ⟨after, ran, ringPart, entries, fun leader => ?_, fun other => ?_⟩
  · rw [if_pos leader] at slots
    rw [slots]
    refine ⟨recordEntries_lookup _ _ _, fun logIdx outside => ?_⟩
    exact recordEntries_front _ _ _ _ (length ▸ outside)
  · rw [slots, if_neg other]

/-- A ring file whose first extent ends behind ring slot 0. -/
def twoExtents : List Extent :=
  [{ logical := 0, physical := 8192, length := 1024 },
   { logical := 1024, physical := 65536, length := 7168 }]

/-- An entry of two slots. -/
def twoSlotEntry : Entry where
  term := 1
  command := List.replicate 600 7

/--
A leader with the tail at the last slot and bytes of an earlier call in the
buffer.
-/
def splitLeader : Server where
  raft := {
    currentTerm := 1
    id := 1
    state := .leader
    log := [{}, twoSlotEntry, { term := 1, command := [9] }]
    cluster := [{ id := 1 }, { id := 2, nextIndex := 1 }]
    clusterIndex := 0 }
  ring := { RingLog.configure {} 2 with
    tailLogIndex := 3
    tailSlot := 14
    runBuf := { data := [255, 255], capacity := 512 } }
  io := { extents := twoExtents }

/-- It wraps and skips to the second extent for the first of two entries. -/
theorem splitLeader_writes :
    (splitLeader.placements 2).map Prod.snd = [1, 3] ∧
      ∃ after,
        (persistCircular true 2).run splitLeader = .ok () after ∧
          after.ring.logSlotMap.lookup 2 =
            some { start := 3, numSlots := 1, state := .using } := by
  obtain ⟨after, ran, -, -, leader, -⟩ :=
    coalesced_equals_separate (show splitLeader.Succeeds from rfl)
      (show splitLeader.persistCount 2 = 2 from rfl)
  refine ⟨by decide +kernel, after, ran, ?_⟩
  exact (leader rfl).1 1 { term := 1, command := [9] } 3 (by decide +kernel)

end

end NvmeofRaft
