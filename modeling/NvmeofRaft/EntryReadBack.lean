import NvmeofRaft.BlockCopy
import NvmeofRaft.EntryRuns

namespace NvmeofRaft

/-!
# Reading an entry back

`read_entry_direct` (`raft_pba.cpp`) puts an entry together again from its ring
slots, each read as part of a page of the device.  Every access to a page or to
the command is checked, so an access out of range is an error here.
-/

/-- The errors of reading an entry. -/
inductive ReadExn where
  | lookup (exn : Exn)
  | outOfRange
  deriving Repr, DecidableEq

/-- Read a part of a buffer. -/
def slice
    (buffer : List UInt8)
    (offset length : Nat) :
    Except ReadExn (List UInt8) :=
  if offset + length ≤ buffer.length then
    .ok ((buffer.drop offset).take length)
  else
    .error .outOfRange

/-- `memcpy` into a buffer. -/
def copyInto
    (buffer : List UInt8)
    (offset : Nat)
    (bytes : List UInt8) :
    Except ReadExn (List UInt8) :=
  if offset + bytes.length ≤ buffer.length then
    .ok (buffer.take offset ++ bytes ++ buffer.drop (offset + bytes.length))
  else
    .error .outOfRange

namespace RingLayout

/-- Read the page that holds a ring slot; the slot's offset in the page. -/
def readPage
    (layout : RingLayout)
    (device : ByteImage)
    (slot : Nat) :
    Except ReadExn (List UInt8 × Nat) :=
  match lookup layout.extents (slotOffset slot) sectorSize with
  | .error exn => .error (.lookup exn)
  | .ok segment =>
      let alignedPba := segment.pba / pageSize * pageSize
      .ok (device.read alignedPba pageSize, segment.pba - alignedPba)

/-- The loop over the slots behind the first one. -/
def readSlots
    (layout : RingLayout)
    (device : ByteImage)
    (headerSlot cmdLen : Nat) :
    Nat → Nat → List UInt8 → Nat → Except ReadExn (List UInt8)
  | 0, _, cmd, _ =>
      .ok cmd
  | more + 1, i, cmd, copied =>
      if copied < cmdLen then do
        let (page, offsetInPage) ←
          layout.readPage device ((headerSlot + i) % layout.ringSlots)
        let chunk :=
          if copied + sectorSize > cmdLen then cmdLen - copied else sectorSize
        let bytes ← slice page offsetInPage chunk
        let cmd ← copyInto cmd copied bytes
        layout.readSlots device headerSlot cmdLen more (i + 1) cmd
          (copied + chunk)
      else
        .ok cmd

/-- `read_entry_direct`: the entry at a slot and the slot behind it. -/
def readEntryDirect
    (layout : RingLayout)
    (device : ByteImage)
    (headerSlot : Nat) :
    Except ReadExn (Entry × Nat) := do
  let (page, offsetInPage) ← layout.readPage device headerSlot
  let term ← slice page offsetInPage 8
  let cmdLen ← slice page (offsetInPage + 8) 8
  let numSlots ← slice page (offsetInPage + 16) 8
  let cmdLen := getU64Le cmdLen
  let numSlots := getU64Le numSlots
  let cmd := List.replicate cmdLen 0
  let entry : List UInt8 → Entry × Nat := fun command =>
    ({ term := getU64Le term, command },
      (headerSlot + numSlots) % layout.ringSlots)
  if 0 < cmdLen then do
    let chunk :=
      if sectorSize - entryMetaSize > cmdLen then
        cmdLen
      else
        sectorSize - entryMetaSize
    let bytes ← slice page (offsetInPage + entryMetaSize) chunk
    let cmd ← copyInto cmd 0 bytes
    let cmd ←
      layout.readSlots device headerSlot cmdLen (numSlots - 1) 1 cmd chunk
    return entry cmd
  else
    return entry cmd

end RingLayout

theorem slice_of_le
    {buffer : List UInt8}
    {offset length : Nat}
    (inside : offset + length ≤ buffer.length) :
    slice buffer offset length = .ok ((buffer.drop offset).take length) :=
  if_pos inside

/-- The command with its first bytes filled in. -/
def filled
    (command : List UInt8)
    (copied : Nat) :
    List UInt8 :=
  command.take copied ++ List.replicate (command.length - copied) 0

theorem filled_zero
    (command : List UInt8) :
    filled command 0 = List.replicate command.length 0 :=
  rfl

theorem filled_length
    (command : List UInt8) :
    filled command command.length = command := by
  rw [filled, List.take_length, Nat.sub_self, List.replicate_zero,
    List.append_nil]

/-- Copying the bytes that come next fills them in. -/
theorem copyInto_filled
    {command : List UInt8}
    {copied chunk : Nat}
    (inside : copied + chunk ≤ command.length) :
    copyInto (filled command copied) copied
        ((command.drop copied).take chunk) =
      .ok (filled command (copied + chunk)) := by
  have front : (command.take copied).length = copied := by
    rw [List.length_take]
    omega
  have bytes : ((command.drop copied).take chunk).length = chunk := by
    rw [List.length_take, List.length_drop]
    omega
  have whole : copied + chunk ≤ (filled command copied).length := by
    rw [filled, List.length_append, front, List.length_replicate]
    omega
  rw [copyInto, bytes, if_pos whole, Except.ok.injEq, filled, filled,
    List.take_left' front, ← List.drop_drop, List.drop_left' front,
    List.drop_replicate, ← List.take_add, Nat.sub_sub]

/--
The extent map resolves the whole ring at multiples of the sector size, and the
device holds the bytes of the file where the map puts them.
-/
structure RingLayout.Resolves
    (layout : RingLayout)
    (device file : ByteImage) : Prop where
  aligned :
    ∀ extent ∈ layout.extents,
      sectorSize ∣ extent.logical ∧ sectorSize ∣ extent.physical
  covered :
    ∀ slot < layout.ringSlots, ∀ offset < sectorSize,
      ∃ segment,
        lookup layout.extents (slotOffset slot + offset) 1 = .ok segment
  mapped :
    ∀ logical segment,
      lookup layout.extents logical 1 = .ok segment →
      device segment.pba = file logical

section

variable {layout : RingLayout} {device file : ByteImage}

/-- No extent starts inside a sector. -/
theorem extentsUpTo_inSector
    {extents : List Extent}
    {logical offset : Nat}
    (aligned : ∀ extent ∈ extents, sectorSize ∣ extent.logical)
    (sector : sectorSize ∣ logical)
    (inside : offset < sectorSize) :
    extentsUpTo extents (logical + offset) = extentsUpTo extents logical := by
  induction extents with
  | nil =>
      rfl
  | cons first rest inductionHypothesis =>
      have later :=
        inductionHypothesis fun extent held =>
          aligned extent (List.mem_cons_of_mem first held)
      obtain ⟨count, starts⟩ := aligned first List.mem_cons_self
      obtain ⟨position, rfl⟩ := sector
      have same :
          decide (first.logical ≤ sectorSize * position + offset) =
            decide (first.logical ≤ sectorSize * position) := by
        rw [decide_eq_decide, starts]
        unfold sectorSize at inside ⊢
        omega
      unfold extentsUpTo at later ⊢
      rw [List.takeWhile_cons, List.takeWhile_cons, same, later]

/-- A ring slot is in one extent, at a multiple of the sector size. -/
theorem RingLayout.Resolves.located
    (resolves : layout.Resolves device file)
    {slot : Nat}
    (inRing : slot < layout.ringSlots) :
    ∃ segment,
      lookup layout.extents (slotOffset slot) sectorSize = .ok segment ∧
        sectorSize ∣ segment.pba ∧
          ∀ offset < sectorSize,
            device (segment.pba + offset) =
              file (slotOffset slot + offset) := by
  have sector : sectorSize ∣ slotOffset slot :=
    Nat.dvd_add (Nat.dvd_refl _) (Nat.dvd_mul_left _ _)
  have upTo :
      ∀ offset < sectorSize,
        extentsUpTo layout.extents (slotOffset slot + offset) =
          extentsUpTo layout.extents (slotOffset slot) :=
    fun offset inside =>
      extentsUpTo_inSector (fun extent held => (resolves.aligned extent held).1)
        sector inside
  have atEnd : sectorSize - 1 < sectorSize := by decide
  obtain ⟨final, resolved⟩ := resolves.covered slot inRing _ atEnd
  unfold lookup at resolved
  rw [upTo _ atEnd] at resolved
  cases last : (extentsUpTo layout.extents (slotOffset slot)).getLast? with
  | none =>
      rw [last] at resolved
      cases resolved
  | some extent =>
      have taken := List.mem_of_getLast? last
      have starts : extent.logical ≤ slotOffset slot := by
        simpa using List.mem_takeWhile_imp taken
      obtain ⟨logicalSector, physicalSector⟩ :=
        resolves.aligned extent ((List.takeWhile_sublist _).mem taken)
      simp only [last] at resolved
      split at resolved
      · cases resolved
      · rename_i covers
        have found :
            ∀ offset < sectorSize, ∀ length,
              lookup layout.extents (slotOffset slot + offset) length =
                .ok {
                  pba := extent.physical + (slotOffset slot - extent.logical) +
                    offset
                  len := min
                    (extent.length - (slotOffset slot + offset -
                      extent.logical)) length } := by
          intro offset inside length
          have covered :
              ¬ extent.logical + extent.length ≤ slotOffset slot + offset := by
            omega
          have address :
              extent.physical + (slotOffset slot + offset - extent.logical) =
                extent.physical + (slotOffset slot - extent.logical) +
                  offset := by
            omega
          unfold lookup
          rw [upTo offset inside]
          simp only [last, if_neg covered, address]
        refine ⟨_, found 0 (by decide) sectorSize, ?_, fun offset inside => ?_⟩
        · exact Nat.dvd_add
            (Nat.dvd_add physicalSector (Nat.dvd_sub sector logicalSector))
            (Nat.dvd_zero _)
        · exact resolves.mapped _ _ (found offset inside 1)

/-- A slot is read in range from the page that holds it. -/
theorem RingLayout.Resolves.reads
    (resolves : layout.Resolves device file)
    {slot : Nat}
    (inRing : slot < layout.ringSlots) :
    ∃ page offsetInPage,
      layout.readPage device slot = .ok (page, offsetInPage) ∧
        ∀ offset length,
          offset + length ≤ sectorSize →
          slice page (offsetInPage + offset) length =
            .ok (file.read (slotOffset slot + offset) length) := by
  obtain ⟨segment, resolved, sector, bytes⟩ := resolves.located inRing
  refine ⟨_, _, by rw [readPage, resolved], fun offset length inside => ?_⟩
  have inPage :
      segment.pba - segment.pba / pageSize * pageSize + offset + length ≤
        pageSize := by
    unfold sectorSize pageSize at *
    omega
  have address :
      segment.pba / pageSize * pageSize +
          (segment.pba - segment.pba / pageSize * pageSize + offset) =
        segment.pba + offset := by
    have := Nat.div_mul_le_self segment.pba pageSize
    omega
  rw [slice_of_le (by rwa [ByteImage.length_read]),
    ByteImage.drop_take_read _ inPage, address, Except.ok.injEq]
  apply List.map_congr_left
  intro position member
  have before : position < length := List.mem_range.mp member
  have same := bytes (offset + position) (by omega)
  rw [← Nat.add_assoc, ← Nat.add_assoc] at same
  exact same

/-- The file holds an encoded entry from a slot on. -/
structure HoldsEntry
    (file : ByteImage)
    (entry : Entry)
    (logIdx start : Nat) : Prop where
  encoded :
    file.read (slotOffset start) (entry.needed * sectorSize) =
      encodeEntry entry entry.needed logIdx

variable {entry : Entry} {logIdx start : Nat}

/-- The fields of an encoded entry, one behind the other. -/
theorem encodeEntry_fields
    (entry : Entry)
    (needed logIdx : Nat) :
    encodeEntry entry needed logIdx =
      putU64Le entry.term ++ (putU64Le entry.command.length ++
        (putU64Le needed ++ (putU64Le logIdx ++ (entry.command ++
          List.replicate
            (needed * sectorSize -
              (entryMetaSize + entry.command.length)) 0)))) := by
  simp only [encodeEntry, List.append_assoc]

/-- The header fields of the entry. -/
theorem HoldsEntry.header
    (holds : HoldsEntry file entry logIdx start) :
    file.read (slotOffset start) 8 = putU64Le entry.term ∧
      file.read (slotOffset start + 8) 8 =
        putU64Le entry.command.length ∧
      file.read (slotOffset start + 16) 8 = putU64Le entry.needed := by
  have fits := entry.fits
  have size : entryMetaSize = 32 := rfl
  have part :
      ∀ offset,
        offset + 8 ≤ entryMetaSize →
        file.read (slotOffset start + offset) 8 =
          ((encodeEntry entry entry.needed logIdx).drop offset).take 8 := by
    intro offset inside
    rw [← holds.encoded, ByteImage.drop_take_read _ (by omega)]
  have term := part 0 (by decide)
  have length := part 8 (by decide)
  have needed := part (8 + 8) (by decide)
  rw [encodeEntry_fields] at term length needed
  rw [List.drop_zero, List.take_left' (length_putU64Le _)] at term
  rw [List.drop_left' (length_putU64Le _),
    List.take_left' (length_putU64Le _)] at length
  rw [← List.drop_drop, List.drop_left' (length_putU64Le _),
    List.drop_left' (length_putU64Le _),
    List.take_left' (length_putU64Le _)] at needed
  exact ⟨term, length, needed⟩

/-- The bytes of the command. -/
theorem HoldsEntry.command
    (holds : HoldsEntry file entry logIdx start)
    {copied chunk : Nat}
    (inside : copied + chunk ≤ entry.command.length) :
    file.read (slotOffset start + (entryMetaSize + copied)) chunk =
      (entry.command.drop copied).take chunk := by
  have fits := entry.fits
  have behind :
      (encodeEntry entry entry.needed logIdx).drop entryMetaSize =
        entry.command ++ List.replicate
          (entry.needed * sectorSize -
            (entryMetaSize + entry.command.length)) 0 := by
    rw [encodeEntry_fields]
    simp only [← List.append_assoc]
    rw [List.append_assoc, List.drop_left']
    simp only [List.length_append, length_putU64Le]
    rfl
  rw [← ByteImage.drop_take_read _
      (show _ ≤ entry.needed * sectorSize by omega),
    holds.encoded, ← List.drop_drop, behind,
    List.drop_append_of_le_length (by omega), List.take_append_of_le_length]
  rw [List.length_drop]
  omega

/--
The loop fills in the rest of the command: in front of slot `i`, either
everything is copied or exactly the bytes of the slots before it.
-/
theorem HoldsEntry.readSlots
    (holds : HoldsEntry file entry logIdx start)
    (resolves : layout.Resolves device file)
    (inRing : start + entry.needed ≤ layout.ringSlots) :
    ∀ (more i copied : Nat),
      i + more = entry.needed →
      copied ≤ entry.command.length →
      copied = entry.command.length ∨
        entryMetaSize + copied = i * sectorSize →
      layout.readSlots device start entry.command.length more i
          (filled entry.command copied) copied =
        .ok entry.command := by
  have fits := entry.fits
  intro more
  induction more with
  | zero =>
      intro i copied slots inside progress
      have all : copied = entry.command.length := by
        rcases progress with all | before
        · exact all
        · rw [Nat.add_zero] at slots
          rw [← slots, ← before] at fits
          omega
      rw [RingLayout.readSlots, all, filled_length]
  | succ more inductionHypothesis =>
      intro i copied slots inside progress
      by_cases left : copied < entry.command.length
      · have before : entryMetaSize + copied = i * sectorSize := by
          rcases progress with all | before
          · omega
          · exact before
        have slot : (start + i) % layout.ringSlots = start + i :=
          Nat.mod_eq_of_lt (by omega)
        obtain ⟨page, offsetInPage, located, reads⟩ :=
          resolves.reads (show start + i < layout.ringSlots by omega)
        obtain ⟨chunk, size⟩ :
            ∃ chunk,
              (if copied + sectorSize > entry.command.length then
                entry.command.length - copied
              else
                sectorSize) = chunk :=
          ⟨_, rfl⟩
        have inSlot : chunk ≤ sectorSize := by
          rw [← size]
          split
          · omega
          · exact Nat.le_refl _
        have inCommand : copied + chunk ≤ entry.command.length := by
          rw [← size]
          split
          · omega
          · omega
        have bytes := reads 0 chunk (by omega)
        have address :
            slotOffset (start + i) + 0 =
              slotOffset start + (entryMetaSize + copied) := by
          rw [before]
          unfold slotOffset
          rw [Nat.add_mul, Nat.add_zero, Nat.add_assoc]
        rw [address, holds.command inCommand] at bytes
        have next :
            copied + chunk = entry.command.length ∨
              entryMetaSize + (copied + chunk) = (i + 1) * sectorSize := by
          rw [← size, Nat.succ_mul]
          split
          · omega
          · omega
        rw [RingLayout.readSlots, if_pos left, slot, located]
        simp only [size, bind, Except.bind]
        rw [← Nat.add_zero offsetInPage, bytes]
        simp only [copyInto_filled inCommand]
        exact inductionHypothesis _ _ (by omega) inCommand next
      · have all : copied = entry.command.length := by omega
        rw [RingLayout.readSlots, if_neg left, all, filled_length]

/-- An entry that the file holds in the ring is read back. -/
theorem HoldsEntry.readEntryDirect
    (holds : HoldsEntry file entry logIdx start)
    (resolves : layout.Resolves device file)
    (inRing : start + entry.needed ≤ layout.ringSlots)
    (term : entry.term < 2 ^ 64)
    (length : entry.command.length < 2 ^ 64) :
    layout.readEntryDirect device start =
      .ok ({ term := entry.term, command := entry.command },
        (start + entry.needed) % layout.ringSlots) := by
  have positive : 0 < entry.needed := slotsForEntry_pos _
  have needed : entry.needed < 2 ^ 64 := by
    unfold Entry.needed slotsForEntry entryMetaSize sectorSize
    omega
  obtain ⟨page, offsetInPage, located, reads⟩ :=
    resolves.reads (show start < layout.ringSlots by omega)
  obtain ⟨termBytes, lengthBytes, neededBytes⟩ := holds.header
  have readTerm := reads 0 8 (by decide)
  have readLength := reads 8 8 (by decide)
  have readNeeded := reads 16 8 (by decide)
  rw [Nat.add_zero, Nat.add_zero, termBytes] at readTerm
  rw [lengthBytes] at readLength
  rw [neededBytes] at readNeeded
  rw [RingLayout.readEntryDirect, located]
  simp only [bind, Except.bind, readTerm, readLength, readNeeded,
    getU64Le_putU64Le term, getU64Le_putU64Le length,
    getU64Le_putU64Le needed]
  split
  · obtain ⟨chunk, size⟩ :
        ∃ chunk,
          (if sectorSize - entryMetaSize > entry.command.length then
            entry.command.length
          else
            sectorSize - entryMetaSize) = chunk :=
      ⟨_, rfl⟩
    have inSlot : entryMetaSize + chunk ≤ sectorSize := by
      have metaInSlot : entryMetaSize ≤ sectorSize := by decide
      rw [← size]
      split
      · omega
      · omega
    have inCommand : 0 + chunk ≤ entry.command.length := by
      rw [← size]
      split
      · omega
      · omega
    have bytes := reads entryMetaSize chunk inSlot
    have progress :
        0 + chunk = entry.command.length ∨
          entryMetaSize + (0 + chunk) = 1 * sectorSize := by
      rw [← size]
      split
      · exact Or.inl (Nat.zero_add _)
      · exact Or.inr rfl
    rw [← Nat.add_zero entryMetaSize, holds.command inCommand] at bytes
    have rest := holds.readSlots resolves inRing (entry.needed - 1) 1
      (0 + chunk) (by omega) inCommand progress
    simp only [size, ← filled_zero]
    rw [← Nat.add_zero entryMetaSize, bytes]
    simp only [copyInto_filled inCommand]
    rw [Nat.zero_add] at rest ⊢
    rw [rest]
    rfl
  · rename_i empty
    have nothing : entry.command = [] :=
      List.length_eq_zero_iff.mp (by omega)
    rw [nothing]
    rfl

/-- Entries that are placed elsewhere leave the bytes of the slots alone. -/
theorem writeEntries_apart
    {needed : Nat}
    (placements : List (Entry × Nat)) :
    ∀ (logIdx : Nat) (image : ByteImage),
      (∀ other slot,
        (other, slot) ∈ placements →
        slot + other.needed ≤ start ∨ start + needed ≤ slot) →
      (writeEntries placements logIdx image).read (slotOffset start)
          (needed * sectorSize) =
        image.read (slotOffset start) (needed * sectorSize) := by
  induction placements with
  | nil =>
      intro logIdx image _
      rfl
  | cons first rest inductionHypothesis =>
      intro logIdx image apart
      refine (inductionHypothesis _ _ fun other slot held =>
        apart other slot (List.mem_cons_of_mem _ held)).trans ?_
      apply ByteImage.read_congr
      intro position behind inside
      have bytes := encodeEntry_length first.1 logIdx
      unfold slotOffset sectorSize at *
      rcases apart first.1 first.2 List.mem_cons_self with before | after
      · exact ByteImage.write_of_ge (by omega)
      · exact ByteImage.write_of_lt (by omega)

/-- An entry that no later one is placed over is in the file. -/
theorem writeEntries_holds
    (placements : List (Entry × Nat)) :
    ∀ (logIdx : Nat) (image : ByteImage) (offset : Nat),
      placements[offset]? = some (entry, start) →
      (∀ other slot,
        (other, slot) ∈ placements.drop (offset + 1) →
        slot + other.needed ≤ start ∨ start + entry.needed ≤ slot) →
      HoldsEntry (writeEntries placements logIdx image) entry
        (logIdx + offset) start := by
  induction placements with
  | nil =>
      intro logIdx image offset found
      cases found
  | cons first rest inductionHypothesis =>
      intro logIdx image offset found apart
      cases offset with
      | zero =>
          obtain rfl := Option.some.inj found
          constructor
          refine (writeEntries_apart rest _ _ apart).trans ?_
          rw [← encodeEntry_length entry logIdx]
          exact ByteImage.read_write_self _ _ _
      | succ offset =>
          rw [← Nat.add_assoc, Nat.add_right_comm]
          exact inductionHypothesis _ _ _ found apart

/--
The round trip of an entry: what a `persist_circular` call whose I/O succeeds
has written at a slot, with no later entry of the call placed over it, is read
back by `read_entry_direct` with the same term and command and the slot behind
it, and every access to a page or to the command is in range.
-/
theorem entry_read_back
    {server after : Server}
    {nNewEntries count offset : Nat}
    (succeeds : server.Succeeds)
    (counted : server.persistCount nNewEntries = count)
    (written :
      (persistCircular true nNewEntries).run server = .ok () after)
    (placed : (server.placements count)[offset]? = some (entry, start))
    (apart :
      ∀ other slot,
        (other, slot) ∈ (server.placements count).drop (offset + 1) →
        slot + other.needed ≤ start ∨ start + entry.needed ≤ slot)
    (term : entry.term < 2 ^ 64)
    (length : entry.command.length < 2 ^ 64)
    (inRing : start + entry.needed ≤ after.ring.ringSlots)
    (resolves : after.layout.Resolves device after.io.file) :
    after.layout.readEntryDirect device start =
      .ok ({ term := entry.term, command := entry.command },
        (start + entry.needed) % after.ring.ringSlots) := by
  obtain ⟨final, ran, writes⟩ :=
    persistCircular_returns_writes succeeds nNewEntries
  cases ran.symm.trans written
  rw [counted] at writes
  have holds :=
    writeEntries_holds (server.placements count)
      (server.firstPersisted count) server.io.file offset placed apart
  have inFile :
      HoldsEntry after.io.file entry (server.firstPersisted count + offset)
        start := by
    constructor
    rw [← holds.encoded]
    apply ByteImage.read_congr
    intro position behind _
    exact writes.ringPart position
      (Nat.le_trans (headerSize_le_slotOffset start) behind)
  exact inFile.readEntryDirect resolves inRing term length

end

/-- A device with the two extents of the file. -/
def splitDevice (file : ByteImage) : ByteImage :=
  fun position =>
    if position < 65536 then
      file (position - 8192)
    else
      file (1024 + (position - 65536))

theorem splitDevice_resolves
    (file : ByteImage) :
    RingLayout.Resolves { ringSlots := 15, extents := twoExtents }
      (splitDevice file) file := by
  have front :
      ∀ logical < 1024, ∀ length,
        lookup twoExtents logical length =
          .ok { pba := 8192 + logical, len := min (1024 - logical) length } := by
    intro logical inside length
    have before : ¬ 1024 ≤ logical := by omega
    simp [lookup, extentsUpTo, twoExtents, before]
  have back :
      ∀ logical,
        1024 ≤ logical →
        ∀ length,
          lookup twoExtents logical length =
            if 8192 ≤ logical then
              .error .offsetPastExtent
            else
              .ok {
                pba := 65536 + (logical - 1024)
                len := min (7168 - (logical - 1024)) length } := by
    intro logical behind length
    simp [lookup, extentsUpTo, twoExtents, behind]
  constructor
  · decide
  · intro slot inRing offset inside
    have inFile : slotOffset slot + offset < 8192 := by
      have slots : slot < 15 := inRing
      unfold slotOffset ringOffset headerSize sectorSize at *
      omega
    by_cases first : slotOffset slot + offset < 1024
    · exact ⟨_, front _ first 1⟩
    · have located := back _ (Nat.le_of_not_lt first) 1
      rw [if_neg (Nat.not_le.mpr inFile)] at located
      exact ⟨_, located⟩
  · intro logical segment found
    by_cases first : logical < 1024
    · have inside : 8192 + logical < 65536 := by omega
      have segmentAt := Except.ok.inj ((front _ first 1).symm.trans found)
      rw [← segmentAt, splitDevice, if_pos inside, Nat.add_sub_cancel_left]
    · have located := (back _ (Nat.le_of_not_lt first) 1).symm.trans found
      split at located
      · cases located
      · have behind : ¬ 65536 + (logical - 1024) < 65536 := by omega
        rw [← Except.ok.inj located, splitDevice, if_neg behind,
          Nat.add_sub_cancel_left,
          Nat.add_sub_cancel' (Nat.le_of_not_lt first)]

/-- The entry of two slots that the split leader writes is read back. -/
theorem splitLeader_reads_back :
    (splitLeader.placements 2).map Prod.snd = [1, 3] ∧
      ∃ after,
        (persistCircular true 2).run splitLeader = .ok () after ∧
          after.layout.readEntryDirect (splitDevice after.io.file) 1 =
            .ok (twoSlotEntry, 3) := by
  obtain ⟨after, ran, -⟩ :=
    persistCircular_returns_writes (show splitLeader.Succeeds from rfl) 2
  have same := persistCircular_frames true 2 splitLeader
  rw [ran] at same
  have layout : after.layout = { ringSlots := 15, extents := twoExtents } :=
    congrArg Server.layout same
  have ringSlots : after.ring.ringSlots = 15 :=
    congrArg RingLayout.ringSlots layout
  have placed :
      (splitLeader.placements 2)[0]? = some (twoSlotEntry, 1) := by
    decide +kernel
  have later :
      (splitLeader.placements 2).drop 1 =
        [({ term := 1, command := [9] }, 3)] := by
    decide +kernel
  have needed : twoSlotEntry.needed = 2 := by decide +kernel
  have read :=
    entry_read_back (show splitLeader.Succeeds from rfl)
      (show splitLeader.persistCount 2 = 2 from rfl) ran placed
      (by
        rw [later, needed]
        intro other slot held
        cases List.mem_singleton.mp held
        exact Or.inr (by decide))
      (by decide) (by decide +kernel)
      (by
        rw [ringSlots, needed]
        decide)
      (layout ▸ splitDevice_resolves _)
  rw [ringSlots, needed] at read
  exact ⟨by decide +kernel, after, ran, read⟩

end NvmeofRaft
