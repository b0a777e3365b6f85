import Mathlib.Data.Nat.ModEq
import NvmeofRaft.BlockCopy

namespace NvmeofRaft

/-!
# The footprint of a block copy

`do_pba_copy` rounds the bytes of a batch up to whole pages and cuts them at
the ends of the extents, at the ring end and at the chunk limit.  On a ring
file without holes the chunks reach exactly the slots from the first one on,
around the ring, up to the rounded end.  What lies behind the last slot of the
batch, but in front of the page boundary, is overwritten as well.
-/

/-- Up to where the extents reach that start at an offset. -/
def extentsEnd
    (start : Nat)
    (extents : List Extent) :
    Nat :=
  start + (extents.map Extent.length).sum

/-- Every offset in front of the end of a tiling has an extent. -/
theorem Tiles.covered
    {start logical : Nat}
    {extents : List Extent}
    (tiled : Tiles start extents)
    (above : start ≤ logical)
    (below : logical < extentsEnd start extents) :
    ∃ extent, coveringExtent extents logical = some extent := by
  have held : ∃ extent ∈ extents, extent.covers logical = true := by
    induction extents generalizing start with
    | nil =>
        simp only [extentsEnd, List.map_nil, List.sum_nil] at below
        omega
    | cons first rest inductionHypothesis =>
        obtain ⟨atStart, -, later⟩ := tiled
        by_cases inFirst : logical < start + first.length
        · refine ⟨first, List.mem_cons_self, Extent.covers_iff.mpr ?_⟩
          omega
        · obtain ⟨extent, inRest, covers⟩ :=
            inductionHypothesis later (Nat.not_lt.mp inFirst) (by
              simp only [extentsEnd, List.map_cons, List.sum_cons] at below ⊢
              omega)
          exact ⟨extent, List.mem_cons_of_mem _ inRest, covers⟩
  obtain ⟨extent, member, covers⟩ := held
  exact ⟨extent, tiled.covering member covers⟩

/-- Extents of whole units start at whole units. -/
theorem Tiles.dvd_logical
    {start unit : Nat}
    {extents : List Extent}
    {extent : Extent}
    (tiled : Tiles start extents)
    (starts : unit ∣ start)
    (units : ∀ extent ∈ extents, unit ∣ extent.length)
    (held : extent ∈ extents) :
    unit ∣ extent.logical := by
  induction extents generalizing start with
  | nil =>
      cases held
  | cons first rest inductionHypothesis =>
      obtain ⟨atStart, -, later⟩ := tiled
      rcases List.mem_cons.mp held with rfl | inRest
      · rw [atStart]
        exact starts
      · exact inductionHypothesis later
          (Nat.dvd_add starts (units first List.mem_cons_self))
          (fun extent member => units extent (List.mem_cons_of_mem _ member))
          inRest

/-- The extents of a ring file tile its header and its slots in sectors. -/
structure RingLayout.Tiled (layout : RingLayout) : Prop where
  slots : 0 < layout.ringSlots
  tiled : Tiles 0 layout.extents
  whole :
    extentsEnd 0 layout.extents = (layout.ringSlots + 1) * sectorSize
  sectors : ∀ extent ∈ layout.extents, sectorSize ∣ extent.length

namespace RingLayout

variable {layout : RingLayout}

/-- The extent of a ring slot ends at a sector boundary behind the slot. -/
theorem Tiled.slot
    (tiled : layout.Tiled)
    {slot : Nat}
    (inRing : slot < layout.ringSlots) :
    ∃ extent,
      coveringExtent layout.extents (slotOffset slot) = some extent ∧
        0 < bytesLeft layout.extents (slotOffset slot) ∧
          sectorSize ∣ bytesLeft layout.extents (slotOffset slot) := by
  have below : slotOffset slot < extentsEnd 0 layout.extents := by
    rw [tiled.whole]
    simp only [slotOffset, ringOffset, headerSize, sectorSize]
    omega
  obtain ⟨extent, found⟩ := tiled.tiled.covered (Nat.zero_le _) below
  obtain ⟨held, covers⟩ := mem_of_coveringExtent found
  rw [Extent.covers_iff] at covers
  have starts := tiled.tiled.dvd_logical (Nat.dvd_zero _) tiled.sectors held
  have length := tiled.sectors extent held
  refine ⟨extent, found, ?_, ?_⟩
  · rw [bytesLeft_of_covering found]
    omega
  · rw [bytesLeft_of_covering found]
    have offset : sectorSize ∣ slotOffset slot :=
      Nat.dvd_add (Nat.dvd_refl _) (Nat.dvd_mul_left _ _)
    exact Nat.dvd_sub length (Nat.dvd_sub offset starts)

/-- The chunk lies on the slots from the given one on, in one extent. -/
structure Placed
    (layout : RingLayout)
    (slot : Nat)
    (chunk : PbaChunk) : Prop where
  positive : 0 < chunk.nbytes
  sectors : sectorSize ∣ chunk.nbytes
  limit : chunk.nbytes ≤ maxPbaCopyChunkBytes
  inRing :
    slot * sectorSize + chunk.nbytes ≤ layout.ringSlots * sectorSize
  addressed : chunk.dst ≠ 0
  inExtent :
    ∃ extent ∈ layout.extents,
      extent.logical ≤ slotOffset slot ∧
        slotOffset slot + chunk.nbytes ≤ extent.logical + extent.length ∧
          chunk.dst = extent.physical + (slotOffset slot - extent.logical)

/-- The bytes of a placed chunk are those of its slots. -/
theorem Placed.address
    {slot : Nat}
    {chunk : PbaChunk}
    (placed : layout.Placed slot chunk)
    (tiled : layout.Tiled)
    {byte : Nat}
    (inside : byte < chunk.nbytes) :
    physicalAt layout.extents (slotOffset slot + byte) =
      some (chunk.dst + byte) := by
  obtain ⟨extent, held, starts, ends, address⟩ := placed.inExtent
  have covers : extent.covers (slotOffset slot + byte) = true :=
    Extent.covers_iff.mpr (by omega)
  rw [physicalAt, tiled.tiled.covering held covers, Option.map_some, address]
  congr 1
  omega

/-- The first chunk lies in one extent and in front of the ring end. -/
theorem chunkAt_placed
    (tiled : layout.Tiled)
    {slot remaining pba nbytes : Nat}
    (inRing : slot < layout.ringSlots)
    (sectors : sectorSize ∣ remaining)
    (cut : layout.chunkAt slot remaining = .ok (pba, nbytes))
    (src : Nat) :
    layout.Placed slot { src, dst := pba, nbytes } := by
  obtain ⟨extent, found, left, leftSectors⟩ := tiled.slot inRing
  obtain ⟨held, covers⟩ := mem_of_coveringExtent found
  rw [Extent.covers_iff] at covers
  have length := bytesLeft_of_covering found
  have positive := (chunkAt_pos cut).1
  rw [chunkAt, tiled.tiled.lookup found] at cut
  dsimp only at cut
  split at cut
  · cases cut
  · rename_i hole
    split at cut
    · cases cut
    · cases cut
      have before : slot * sectorSize + (layout.ringSlots - slot) * sectorSize =
          layout.ringSlots * sectorSize := by
        rw [← Nat.add_mul, Nat.add_sub_cancel' (Nat.le_of_lt inRing)]
      refine ⟨positive, ?_, min_le_right _ _, ?_, hole,
        extent, held, covers.1, ?_, rfl⟩
      · refine min_rec' _ ?_ (by decide)
        refine min_rec' _ ?_ (Nat.dvd_mul_left _ _)
        exact min_rec' _ (min_rec' _ leftSectors sectors) sectors
      · dsimp only
        omega
      · dsimp only
        omega

/-- A slot with an address gives a chunk. -/
theorem chunkAt_some
    (tiled : layout.Tiled)
    {slot remaining : Nat}
    (inRing : slot < layout.ringSlots)
    (some : 0 < remaining)
    (addressed : physicalAt layout.extents (slotOffset slot) ≠ .some 0) :
    ∃ found, layout.chunkAt slot remaining = .ok found := by
  obtain ⟨extent, found, left, -⟩ := tiled.slot inRing
  have before : 0 < (layout.ringSlots - slot) * sectorSize :=
    Nat.mul_pos (by omega) (by decide)
  have limit : 0 < maxPbaCopyChunkBytes := by decide
  rw [physicalAt, found, Option.map_some] at addressed
  rw [chunkAt, tiled.tiled.lookup found]
  dsimp only
  rw [if_neg fun hole => addressed (congrArg _ hole), if_neg (by omega)]
  exact ⟨_, rfl⟩

/--
The chunks carry `remaining` bytes from `src` on to the slots from `slot` on,
counted around the ring.
-/
def Cut
    (layout : RingLayout) :
    Nat → Nat → Nat → List PbaChunk → Prop
  | _, _, remaining, [] =>
      remaining = 0
  | slot, src, remaining, chunk :: rest =>
      chunk.src = src ∧
        layout.Placed (slot % layout.ringSlots) chunk ∧
          chunk.nbytes ≤ remaining ∧
            layout.Cut (slot + chunk.nbytes / sectorSize)
              (src + chunk.nbytes) (remaining - chunk.nbytes) rest

/-- `do_pba_copy` starts again at slot 0 behind the ring end. -/
theorem wrap_eq_mod
    {slot : Nat}
    (upTo : slot ≤ layout.ringSlots) :
    layout.wrap slot = slot % layout.ringSlots := by
  unfold RingLayout.wrap
  split
  · rename_i atEnd
    rw [Nat.le_antisymm upTo atEnd, Nat.mod_self]
  · rename_i inRing
    rw [Nat.mod_eq_of_lt (Nat.not_le.mp inRing)]

/-- The slot behind a chunk is not behind the ring end. -/
theorem Placed.next_le
    {slot : Nat}
    {chunk : PbaChunk}
    (placed : layout.Placed slot chunk) :
    slot + chunk.nbytes / sectorSize ≤ layout.ringSlots := by
  have inRing := placed.inRing
  obtain ⟨sectors, whole⟩ := placed.sectors
  rw [whole, Nat.mul_comm sectorSize, ← Nat.add_mul] at inRing
  rw [whole, Nat.mul_div_cancel_left _ (show 0 < sectorSize by decide)]
  exact Nat.le_of_mul_le_mul_right inRing (by decide)

/-- What the loop returns is a cut of the batch. -/
theorem chunks_cut
    (tiled : layout.Tiled)
    {remaining : Nat}
    (sectors : sectorSize ∣ remaining) :
    ∀ {slot start src : Nat} {list : List PbaChunk},
      slot ≤ layout.ringSlots →
      slot % layout.ringSlots = start % layout.ringSlots →
      layout.chunks remaining slot src = .ok list →
      layout.Cut start src remaining list := by
  induction remaining using Nat.strong_induction_on with
  | h remaining inductionHypothesis =>
      intro slot start src list upTo same cut
      by_cases done : remaining = 0
      · rw [done, chunks_zero] at cut
        cases cut
        exact done
      · rw [chunks_step done, wrap_eq_mod upTo, same] at cut
        cases found :
            layout.chunkAt (start % layout.ringSlots) remaining with
        | error exn =>
            rw [found] at cut
            cases cut
        | ok chunk =>
            obtain ⟨pba, nbytes⟩ := chunk
            rw [found] at cut
            dsimp only [Except.bind] at cut
            have bounds := chunkAt_pos found
            have placed := chunkAt_placed tiled
              (Nat.mod_lt start tiled.slots) sectors found src
            have next := placed.next_le
            cases later :
                layout.chunks (remaining - nbytes)
                  (start % layout.ringSlots + nbytes / sectorSize)
                  (src + nbytes) with
            | error exn =>
                rw [later] at cut
                cases cut
            | ok rest =>
                rw [later] at cut
                cases cut
                have fewer : remaining - nbytes < remaining := by omega
                refine ⟨rfl, placed, bounds.2, ?_⟩
                exact inductionHypothesis _ fewer
                  (Nat.dvd_sub sectors placed.sectors) next
                  (Nat.mod_add_mod _ _ _) later

/-- The slots that a page-rounded copy reaches have device addresses. -/
def Addressed
    (layout : RingLayout)
    (slot count : Nat) : Prop :=
  ∀ offset < count,
    physicalAt layout.extents
      (slotOffset ((slot + offset) % layout.ringSlots)) ≠ some 0

instance Addressed.decidable
    (layout : RingLayout)
    (slot count : Nat) :
    Decidable (layout.Addressed slot count) :=
  inferInstanceAs (Decidable (∀ offset < count, _))

/-- The slots behind the first ones have addresses as well. -/
theorem Addressed.rest
    {start remaining nbytes : Nat}
    (addressed : layout.Addressed start (remaining / sectorSize))
    (sectors : sectorSize ∣ nbytes)
    (part : nbytes ≤ remaining) :
    layout.Addressed (start + nbytes / sectorSize)
      ((remaining - nbytes) / sectorSize) := by
  intro offset below
  obtain ⟨size, rfl⟩ := sectors
  rw [Nat.sub_mul_div] at below
  rw [Nat.mul_div_cancel_left _ (show 0 < sectorSize by decide),
    Nat.add_assoc]
  exact addressed _ (by omega)

/-- The loop ends without an exception when all slots have addresses. -/
theorem chunks_some
    (tiled : layout.Tiled)
    {remaining : Nat}
    (sectors : sectorSize ∣ remaining) :
    ∀ {slot start : Nat} (src : Nat),
      slot ≤ layout.ringSlots →
      slot % layout.ringSlots = start % layout.ringSlots →
      layout.Addressed start (remaining / sectorSize) →
      ∃ list, layout.chunks remaining slot src = .ok list := by
  induction remaining using Nat.strong_induction_on with
  | h remaining inductionHypothesis =>
      intro slot start src upTo same addressed
      by_cases done : remaining = 0
      · rw [done, chunks_zero]
        exact ⟨[], rfl⟩
      · have inRing := Nat.mod_lt start tiled.slots
        have sector : 0 < remaining / sectorSize :=
          Nat.div_pos (Nat.le_of_dvd (Nat.pos_of_ne_zero done) sectors)
            (by decide)
        obtain ⟨⟨pba, nbytes⟩, found⟩ := chunkAt_some tiled inRing
          (Nat.pos_of_ne_zero done) (addressed 0 sector)
        have bounds := chunkAt_pos found
        have placed := chunkAt_placed tiled inRing sectors found src
        have fewer : remaining - nbytes < remaining := by omega
        obtain ⟨list, later⟩ := inductionHypothesis _ fewer
          (Nat.dvd_sub sectors placed.sectors) (src + nbytes) placed.next_le
          (Nat.mod_add_mod start _ (nbytes / sectorSize))
          (addressed.rest placed.sectors bounds.2)
        rw [chunks_step done, wrap_eq_mod upTo, same, found]
        dsimp only [Except.bind]
        rw [later]
        exact ⟨_, rfl⟩

end RingLayout

/-- The bytes of some chunks together. -/
def chunkBytes (chunks : List PbaChunk) : Nat :=
  (chunks.map PbaChunk.nbytes).sum

/-- The device address that the chunks give to a byte of the batch. -/
def byteDestination? :
    List PbaChunk → Nat → Option Nat
  | [], _ =>
      none
  | chunk :: rest, byte =>
      if byte < chunk.nbytes then
        some (chunk.dst + byte)
      else
        byteDestination? rest (byte - chunk.nbytes)

namespace RingLayout

variable {layout : RingLayout}

/--
The chunks carry the bytes of a batch, in their order, to the slots from the
given one on, counted around the ring.
-/
structure Decomposes
    (layout : RingLayout)
    (src slot total : Nat)
    (chunks : List PbaChunk) : Prop where
  carried : chunkBytes chunks = total
  source :
    ∀ index chunk,
      chunks[index]? = some chunk →
      chunk.src = src + chunkBytes (chunks.take index)
  placed :
    ∀ index chunk,
      chunks[index]? = some chunk →
      layout.Placed
        ((slot + chunkBytes (chunks.take index) / sectorSize) %
          layout.ringSlots)
        chunk
  destination :
    ∀ byte < total,
      ∃ address,
        byteDestination? chunks byte = some address ∧
          physicalAt layout.extents
              (slotOffset ((slot + byte / sectorSize) % layout.ringSlots) +
                byte % sectorSize) =
            some address

/-- A byte of a placed chunk lies in the slot that its position says. -/
theorem Placed.slotAddress
    {slot : Nat}
    {chunk : PbaChunk}
    (placed : layout.Placed (slot % layout.ringSlots) chunk)
    (tiled : layout.Tiled)
    {byte : Nat}
    (inside : byte < chunk.nbytes) :
    physicalAt layout.extents
        (slotOffset ((slot + byte / sectorSize) % layout.ringSlots) +
          byte % sectorSize) =
      some (chunk.dst + byte) := by
  have inRing := placed.inRing
  have position :
      (slot + byte / sectorSize) % layout.ringSlots =
        slot % layout.ringSlots + byte / sectorSize := by
    rw [← Nat.mod_add_mod]
    refine Nat.mod_eq_of_lt ?_
    simp only [sectorSize] at inRing ⊢
    omega
  have offset :
      slotOffset (slot % layout.ringSlots + byte / sectorSize) +
          byte % sectorSize =
        slotOffset (slot % layout.ringSlots) + byte := by
    simp only [slotOffset, sectorSize]
    omega
  rw [position, offset]
  exact placed.address tiled inside

/-- A cut carries every byte to its slot. -/
theorem Cut.decomposes
    (tiled : layout.Tiled)
    {chunks : List PbaChunk} :
    ∀ {slot src remaining : Nat},
      layout.Cut slot src remaining chunks →
      layout.Decomposes src slot remaining chunks := by
  induction chunks with
  | nil =>
      intro slot src remaining cut
      have done : remaining = 0 := cut
      exact {
        carried := done.symm
        source := fun _ _ held => nomatch held
        placed := fun _ _ held => nomatch held
        destination := fun byte below => by omega }
  | cons chunk rest inductionHypothesis =>
      intro slot src remaining cut
      obtain ⟨begins, placed, part, later⟩ := cut
      have behind := inductionHypothesis later
      have front :
          ∀ index,
            chunkBytes ((chunk :: rest).take (index + 1)) =
              chunk.nbytes + chunkBytes (rest.take index) :=
        fun _ => rfl
      refine ⟨?_, ?_, ?_, ?_⟩
      · have carried := behind.carried
        show chunk.nbytes + chunkBytes rest = remaining
        omega
      · intro index other held
        cases index with
        | zero =>
            cases held
            exact begins
        | succ index =>
            rw [front, ← Nat.add_assoc]
            exact behind.source index other held
      · intro index other held
        cases index with
        | zero =>
            cases held
            have first : (0 : Nat) / sectorSize = 0 := Nat.zero_div _
            show layout.Placed ((slot + 0 / sectorSize) % _) _
            rw [first, Nat.add_zero]
            exact placed
        | succ index =>
            rw [front, Nat.add_div_of_dvd_right placed.sectors,
              ← Nat.add_assoc]
            exact behind.placed index other held
      · intro byte below
        rw [byteDestination?]
        split
        · rename_i inside
          exact ⟨_, rfl, placed.slotAddress tiled inside⟩
        · rename_i outside
          obtain ⟨address, found, address'⟩ :=
            behind.destination (byte - chunk.nbytes) (by omega)
          refine ⟨address, found, ?_⟩
          rw [← address']
          obtain ⟨count, whole⟩ := placed.sectors
          have split :
              byte = sectorSize * count + (byte - chunk.nbytes) := by
            omega
          have slots : chunk.nbytes / sectorSize = count := by
            rw [whole, Nat.mul_div_cancel_left _ (by decide)]
          rw [slots]
          generalize byte - chunk.nbytes = left at split
          rw [split, Nat.mul_add_div (by decide), Nat.mul_add_mod,
            Nat.add_assoc]

end RingLayout

/-- The bytes of a batch, rounded up to whole pages. -/
def copyBytes (logBlockLength : Nat) : Nat :=
  alignUp (logBlockLength * sectorSize) pageSize

theorem sectors_copyBytes
    (logBlockLength : Nat) :
    sectorSize ∣ copyBytes logBlockLength :=
  Nat.dvd_mul_left_of_dvd (show sectorSize ∣ pageSize by decide) _

/--
Block copy chunk decomposition: on a ring file whose extents tile it in whole
sectors and whose slots have addresses, `do_pba_copy` cuts every batch without
an exception into chunks of whole sectors that carry its page-rounded bytes, in
their order, to the slots from `dst_slot` on around the ring; every chunk lies
in one extent, in front of the ring end, and is at most `MaxPBACopyChunkBytes`
long.
-/
theorem copy_decomposes
    {layout : RingLayout}
    {leaderPbaSrc logBlockLength dstSlot : Nat}
    (tiled : layout.Tiled)
    (addressed :
      ∀ slot < layout.ringSlots,
        physicalAt layout.extents (slotOffset slot) ≠ some 0)
    (source : leaderPbaSrc ≠ 0)
    (blocks : 1 ≤ logBlockLength)
    (upTo : dstSlot ≤ layout.ringSlots) :
    ∃ chunks,
      layout.doPbaCopy leaderPbaSrc logBlockLength dstSlot = .ok chunks ∧
        layout.Decomposes leaderPbaSrc dstSlot (copyBytes logBlockLength)
          chunks := by
  have sectors := sectors_copyBytes logBlockLength
  obtain ⟨chunks, cut⟩ := RingLayout.chunks_some tiled sectors leaderPbaSrc
    upTo rfl fun offset _ => addressed _ (Nat.mod_lt _ tiled.slots)
  refine ⟨chunks, ?_, ?_⟩
  · rw [RingLayout.doPbaCopy, if_neg (by omega)]
    exact cut
  · exact (RingLayout.chunks_cut tiled sectors upTo rfl cut).decomposes tiled

/-- A ring file of two pages that are apart on the device. -/
def splitLayout : RingLayout where
  ringSlots := 15
  extents :=
    [{ logical := 0, physical := 8192, length := 4096 },
     { logical := 4096, physical := 65536, length := 4096 }]

theorem splitLayout_tiled :
    splitLayout.Tiled :=
  ⟨by decide, by decide, by decide, by decide⟩

/-- Nine blocks from slot 13 on: the ring end, the extent end, the rest. -/
theorem nine_blocks_decompose :
    ∃ chunks,
      splitLayout.doPbaCopy 4096 9 13 = .ok chunks ∧
        splitLayout.Decomposes 4096 13 8192 chunks :=
  copy_decomposes splitLayout_tiled (by decide) (by decide) (by decide)
    (by decide)

/-- The chunk writes to the address. -/
def PbaChunk.Touches
    (chunk : PbaChunk)
    (address : Nat) : Prop :=
  chunk.dst ≤ address ∧ address < chunk.dst + chunk.nbytes

instance PbaChunk.Touches.decidable
    (chunk : PbaChunk)
    (address : Nat) :
    Decidable (chunk.Touches address) :=
  inferInstanceAs (Decidable (_ ∧ _))

/-- One chunk changes the bytes at its destination and no others. -/
theorem copyChunk_apply
    (devices : Devices)
    (srcDev dstDev : Nat)
    (chunk : PbaChunk)
    (address : Nat) :
    (devices.copyChunk srcDev dstDev chunk) dstDev address =
      if chunk.Touches address then
        devices srcDev (chunk.src + (address - chunk.dst))
      else
        devices dstDev address := by
  have length :
      ((devices srcDev).read chunk.src chunk.nbytes).length =
        chunk.nbytes := by
    simp [ByteImage.read]
  rw [Devices.copyChunk, Function.update_self, ByteImage.write, length]
  by_cases touches : chunk.Touches address
  · have position : address - chunk.dst < chunk.nbytes := by
      have ends := touches.2
      have starts := touches.1
      omega
    rw [if_pos touches, if_pos ⟨touches.1, touches.2⟩, ByteImage.read,
      List.getD_eq_getElem?_getD, List.getElem?_map,
      List.getElem?_range position]
    rfl
  · rw [if_neg touches]
    exact if_neg touches

/-- An address that no chunk touches keeps its bytes. -/
theorem writePbaBatch_untouched
    {srcDev dstDev address : Nat}
    {chunks : List PbaChunk} :
    ∀ devices : Devices,
      (∀ chunk ∈ chunks, ¬ chunk.Touches address) →
      (devices.writePbaBatch srcDev dstDev chunks) dstDev address =
        devices dstDev address := by
  induction chunks with
  | nil =>
      intro devices untouched
      rfl
  | cons chunk rest inductionHypothesis =>
      intro devices untouched
      have later := inductionHypothesis (devices.copyChunk srcDev dstDev chunk)
        fun other held => untouched other (List.mem_cons_of_mem _ held)
      refine later.trans ?_
      rw [copyChunk_apply, if_neg (untouched chunk List.mem_cons_self)]

/-- A batch from a device that holds one value everywhere writes that value. -/
theorem writePbaBatch_touched
    {srcDev dstDev address : Nat}
    {value : UInt8}
    (apart : srcDev ≠ dstDev)
    {chunks : List PbaChunk} :
    ∀ devices : Devices,
      (∀ position, devices srcDev position = value) →
      (devices dstDev address = value ∨
        ∃ chunk ∈ chunks, chunk.Touches address) →
      (devices.writePbaBatch srcDev dstDev chunks) dstDev address =
        value := by
  induction chunks with
  | nil =>
      intro devices source touched
      rcases touched with held | ⟨chunk, member, _⟩
      · exact held
      · cases member
  | cons chunk rest inductionHypothesis =>
      intro devices source touched
      refine inductionHypothesis (devices.copyChunk srcDev dstDev chunk)
        ?_ ?_
      · intro position
        rw [Devices.copyChunk, Function.update_of_ne apart]
        exact source position
      · rw [copyChunk_apply]
        by_cases here : chunk.Touches address
        · rw [if_pos here]
          exact Or.inl (source _)
        · rw [if_neg here]
          rcases touched with held | ⟨other, member, touches⟩
          · exact Or.inl held
          · rcases List.mem_cons.mp member with rfl | inRest
            · exact absurd touches here
            · exact Or.inr ⟨other, inRest, touches⟩

/-- The addresses that a chunk list touches are those it gives to its bytes. -/
theorem touches_iff_byteDestination
    {address : Nat}
    {chunks : List PbaChunk} :
    (∃ chunk ∈ chunks, chunk.Touches address) ↔
      ∃ byte < chunkBytes chunks,
        byteDestination? chunks byte = some address := by
  induction chunks with
  | nil =>
      constructor
      · rintro ⟨chunk, held, _⟩
        cases held
      · rintro ⟨byte, below, _⟩
        exact absurd below (Nat.not_lt_zero byte)
  | cons chunk rest inductionHypothesis =>
      have bytes :
          chunkBytes (chunk :: rest) = chunk.nbytes + chunkBytes rest :=
        rfl
      constructor
      · rintro ⟨other, held, touches⟩
        rcases List.mem_cons.mp held with rfl | inRest
        · obtain ⟨starts, ends⟩ := touches
          refine ⟨address - other.dst, by omega, ?_⟩
          rw [byteDestination?, if_pos (by omega),
            Nat.add_sub_cancel' starts]
        · obtain ⟨byte, below, found⟩ :=
            inductionHypothesis.mp ⟨other, inRest, touches⟩
          refine ⟨chunk.nbytes + byte, by omega, ?_⟩
          rw [byteDestination?, if_neg (by omega), Nat.add_sub_cancel_left]
          exact found
      · rintro ⟨byte, below, found⟩
        rw [byteDestination?] at found
        split at found
        · cases found
          exact ⟨chunk, List.mem_cons_self, by
            unfold PbaChunk.Touches
            omega⟩
        · obtain ⟨other, inRest, touches⟩ :=
            inductionHypothesis.mpr ⟨_, by omega, found⟩
          exact ⟨other, List.mem_cons_of_mem _ inRest, touches⟩

/-- The copy of a batch leaves the ring file alone outside its slots. -/
def RingLayout.CopyKeeps
    (layout : RingLayout)
    (leaderPbaSrc logBlockLength dstSlot : Nat) : Prop :=
  ∀ chunks,
    layout.doPbaCopy leaderPbaSrc logBlockLength dstSlot = .ok chunks →
    ∀ (devices : Devices) (srcDev dstDev logical address : Nat),
      (logical < slotOffset dstSlot ∨
        slotOffset (dstSlot + logBlockLength) ≤ logical) →
      physicalAt layout.extents logical = some address →
      (devices.writePbaBatch srcDev dstDev chunks) dstDev address =
        devices dstDev address

/-- No two bytes of the ring file share a device address. -/
def RingLayout.Separate (layout : RingLayout) : Prop :=
  ∀ first second address,
    physicalAt layout.extents first = some address →
    physicalAt layout.extents second = some address →
    first = second

/-- The extents are apart on the device. -/
def Extent.Apart (first second : Extent) : Prop :=
  first.physical + first.length ≤ second.physical ∨
    second.physical + second.length ≤ first.physical

instance Extent.Apart.decidable
    (first second : Extent) :
    Decidable (first.Apart second) :=
  inferInstanceAs (Decidable (_ ∨ _))

instance Extent.Apart.symmetric :
    Std.Symm Extent.Apart where
  symm _ _ apart := Or.symm apart

/-- Extents that are apart on the device share no address. -/
theorem separate_of_apart
    {layout : RingLayout}
    (apart : layout.extents.Pairwise Extent.Apart) :
    layout.Separate := by
  intro first second address firstAt secondAt
  obtain ⟨left, foundLeft, leftAt⟩ := Option.map_eq_some_iff.mp firstAt
  obtain ⟨right, foundRight, rightAt⟩ := Option.map_eq_some_iff.mp secondAt
  obtain ⟨heldLeft, coversLeft⟩ := mem_of_coveringExtent foundLeft
  obtain ⟨heldRight, coversRight⟩ := mem_of_coveringExtent foundRight
  rw [Extent.covers_iff] at coversLeft coversRight
  by_cases same : left = right
  · subst same
    omega
  · have disjoint := apart.forall heldLeft heldRight same
    unfold Extent.Apart at disjoint
    omega

/-- A batch takes its slots, rounded up to whole pages. -/
theorem copyBytes_eq
    (logBlockLength : Nat) :
    copyBytes logBlockLength =
      (logBlockLength + 7) / 8 * 8 * sectorSize := by
  simp only [copyBytes, alignUp, sectorSize, pageSize]
  omega

namespace RingLayout

variable {layout : RingLayout}

/-- The addresses touched by a decomposition are those of its slots. -/
theorem Decomposes.touches_iff
    {src slot total address : Nat}
    {chunks : List PbaChunk}
    (decomposes : layout.Decomposes src slot total chunks) :
    (∃ chunk ∈ chunks, chunk.Touches address) ↔
      ∃ byte < total,
        physicalAt layout.extents
            (slotOffset ((slot + byte / sectorSize) % layout.ringSlots) +
              byte % sectorSize) =
          some address := by
  rw [touches_iff_byteDestination, decomposes.carried]
  constructor
  · rintro ⟨byte, below, found⟩
    obtain ⟨address, given, placed⟩ := decomposes.destination byte below
    rw [given, Option.some.injEq] at found
    exact ⟨byte, below, found ▸ placed⟩
  · rintro ⟨byte, below, found⟩
    obtain ⟨address, given, placed⟩ := decomposes.destination byte below
    rw [placed, Option.some.injEq] at found
    exact ⟨byte, below, found ▸ given⟩

/-- The slots of a batch that has been cut have addresses. -/
theorem Decomposes.addressed
    {src slot total : Nat}
    {chunks : List PbaChunk}
    (decomposes : layout.Decomposes src slot total chunks) :
    layout.Addressed slot (total / sectorSize) := by
  intro offset below zero
  have first : offset * sectorSize < total := by
    simp only [sectorSize] at below ⊢
    omega
  have touched : ∃ chunk ∈ chunks, chunk.Touches 0 := by
    refine decomposes.touches_iff.mpr ⟨_, first, ?_⟩
    rw [Nat.mul_div_cancel _ (by decide), Nat.mul_mod_left, Nat.add_zero]
    exact zero
  obtain ⟨chunk, held, starts, -⟩ := touched
  obtain ⟨index, found⟩ := List.getElem?_of_mem held
  exact (decomposes.placed index chunk found).addressed
    (Nat.le_zero.mp starts)

/--
What `do_pba_copy` resolves covers the page-rounded range, or nothing is
copied.
-/
theorem doPbaCopy_decomposes
    (tiled : layout.Tiled)
    {src blocks slot : Nat}
    {chunks : List PbaChunk}
    (upTo : slot ≤ layout.ringSlots)
    (resolved : layout.doPbaCopy src blocks slot = .ok chunks) :
    chunks = [] ∨
      layout.Decomposes src slot (copyBytes blocks) chunks := by
  unfold RingLayout.doPbaCopy at resolved
  split at resolved
  · cases resolved
    exact Or.inl rfl
  · exact Or.inr ((chunks_cut tiled (sectors_copyBytes blocks) upTo rfl
      resolved).decomposes tiled)

/-- A copy that stays on the slots of its batch leaves the others alone. -/
theorem copyKeeps_of_inside
    (tiled : layout.Tiled)
    (separate : layout.Separate)
    {src blocks slot : Nat}
    (upTo : slot ≤ layout.ringSlots)
    (inside :
      ∀ offset < copyBytes blocks / sectorSize,
        slot ≤ (slot + offset) % layout.ringSlots ∧
          (slot + offset) % layout.ringSlots < slot + blocks) :
    layout.CopyKeeps src blocks slot := by
  intro chunks resolved devices srcDev dstDev logical address outside file
  refine writePbaBatch_untouched devices fun chunk held touches => ?_
  rcases doPbaCopy_decomposes tiled upTo resolved with rfl | decomposes
  · cases held
  · obtain ⟨byte, below, placed⟩ :=
      decomposes.touches_iff.mp ⟨chunk, held, touches⟩
    have same := separate _ _ _ file placed
    have sector : byte / sectorSize < copyBytes blocks / sectorSize :=
      Nat.div_lt_div_of_lt_of_dvd (sectors_copyBytes blocks) below
    obtain ⟨starts, ends⟩ := inside _ sector
    simp only [slotOffset, sectorSize] at same outside starts ends
    omega

/-- A copy that reaches a slot outside its batch changes it. -/
theorem not_copyKeeps_of_outside
    (tiled : layout.Tiled)
    {src blocks slot offset : Nat}
    (source : src ≠ 0)
    (some : blocks ≠ 0)
    (upTo : slot ≤ layout.ringSlots)
    (addressed : layout.Addressed slot (copyBytes blocks / sectorSize))
    (reached : offset < copyBytes blocks / sectorSize)
    (outside :
      (slot + offset) % layout.ringSlots < slot ∨
        slot + blocks ≤ (slot + offset) % layout.ringSlots) :
    ¬ layout.CopyKeeps src blocks slot := by
  intro keeps
  have sectors := sectors_copyBytes blocks
  obtain ⟨chunks, cut⟩ := chunks_some tiled sectors src upTo rfl addressed
  have resolved : layout.doPbaCopy src blocks slot = .ok chunks := by
    rw [RingLayout.doPbaCopy, if_neg (by omega)]
    exact cut
  have decomposes := (chunks_cut tiled sectors upTo rfl cut).decomposes tiled
  have first : offset * sectorSize < copyBytes blocks := by
    simp only [sectorSize] at reached ⊢
    omega
  obtain ⟨address, -, file⟩ := decomposes.destination _ first
  have touched := decomposes.touches_iff.mpr ⟨_, first, file⟩
  rw [Nat.mul_div_cancel _ (by decide), Nat.mul_mod_left, Nat.add_zero]
    at file
  -- The source device holds ones, the destination zeros.
  have changed :
      (Devices.writePbaBatch (fun device _ => if device = 1 then 1 else 0) 1 0
        chunks) 0 address = 1 :=
    writePbaBatch_touched (by decide) _ (fun _ => rfl) (Or.inr touched)
  rw [keeps chunks resolved _ 1 0 _ address ?_ file] at changed
  · cases changed
  · rcases outside with before | behind
    · refine Or.inl ?_
      simp only [slotOffset, sectorSize]
      omega
    · refine Or.inr ?_
      simp only [slotOffset, sectorSize]
      omega

end RingLayout

/--
Block copy frame: on a ring file whose extents tile it in whole sectors and
that shares no device address, the copy of a batch of at least one slot leaves
everything outside the slots of the batch alone exactly when the batch is a
whole number of pages or the whole ring, or when nothing is copied: without a
source address, or because a slot up to the page boundary has none.
-/
theorem copyKeeps_iff
    {layout : RingLayout}
    {leaderPbaSrc logBlockLength dstSlot : Nat}
    (tiled : layout.Tiled)
    (separate : layout.Separate)
    (blocks : 1 ≤ logBlockLength)
    (fits : dstSlot + logBlockLength ≤ layout.ringSlots) :
    layout.CopyKeeps leaderPbaSrc logBlockLength dstSlot ↔
      slotsPerPage ∣ logBlockLength ∨
        (dstSlot = 0 ∧ logBlockLength = layout.ringSlots) ∨
          leaderPbaSrc = 0 ∨
            ¬ layout.Addressed dstSlot
                (copyBytes logBlockLength / sectorSize) := by
  have upTo : dstSlot ≤ layout.ringSlots := by omega
  have slots :
      copyBytes logBlockLength / sectorSize = (logBlockLength + 7) / 8 * 8 := by
    rw [copyBytes_eq, Nat.mul_div_cancel _ (by decide)]
  have page : slotsPerPage = 8 := rfl
  constructor
  · intro keeps
    by_contra none
    simp only [not_or, not_and, not_not] at none
    obtain ⟨partPage, partRing, source, addressed⟩ := none
    rw [page] at partPage
    have reached : logBlockLength < copyBytes logBlockLength / sectorSize := by
      rw [slots]
      omega
    refine RingLayout.not_copyKeeps_of_outside tiled source (by omega) upTo
      addressed reached ?_ keeps
    rcases Nat.lt_or_eq_of_le fits with room | atEnd
    · rw [Nat.mod_eq_of_lt room]
      exact Or.inr (le_refl _)
    · rw [atEnd, Nat.mod_self]
      exact Or.inl (by omega)
  · rintro (pages | ⟨rfl, whole⟩ | noSource | hole)
    · refine RingLayout.copyKeeps_of_inside tiled separate upTo ?_
      intro offset below
      rw [page] at pages
      rw [slots] at below
      rw [Nat.mod_eq_of_lt (by omega)]
      omega
    · refine RingLayout.copyKeeps_of_inside tiled separate upTo ?_
      intro offset below
      rw [Nat.zero_add, Nat.zero_add, whole]
      exact ⟨Nat.zero_le _, Nat.mod_lt _ tiled.slots⟩
    · intro chunks resolved devices srcDev dstDev logical address _ _
      rw [RingLayout.doPbaCopy, if_pos (Or.inl noSource)] at resolved
      cases resolved
      rfl
    · intro chunks resolved devices srcDev dstDev logical address _ _
      rcases RingLayout.doPbaCopy_decomposes tiled upTo resolved with
        rfl | decomposes
      · rfl
      · exact absurd decomposes.addressed hole

theorem splitLayout_separate :
    splitLayout.Separate :=
  separate_of_apart (by decide)

/-- A page that crosses the extent end is copied to its own slots only. -/
theorem one_page_keeps :
    splitLayout.CopyKeeps 4096 8 5 :=
  (copyKeeps_iff splitLayout_tiled splitLayout_separate (by decide)
    (by decide)).mpr (Or.inl (by decide))

/--
One block in slot 1 is copied with the seven slots behind it, and one block in
the last slot with the first seven slots of the ring.
-/
theorem one_block_overruns :
    (splitLayout.Tiled ∧ splitLayout.Separate) ∧
      ¬ splitLayout.CopyKeeps 4096 1 1 ∧ ¬ splitLayout.CopyKeeps 4096 1 14 := by
  have overruns :
      ∀ slot ≤ splitLayout.ringSlots,
        splitLayout.Addressed slot 8 →
        ((slot + 1) % splitLayout.ringSlots < slot ∨
          slot + 1 ≤ (slot + 1) % splitLayout.ringSlots) →
        ¬ splitLayout.CopyKeeps 4096 1 slot := by
    intro slot upTo addressed outside
    exact RingLayout.not_copyKeeps_of_outside splitLayout_tiled (by decide)
      (by decide) upTo addressed (by decide) outside
  refine ⟨⟨splitLayout_tiled, splitLayout_separate⟩, ?_, ?_⟩
  · exact overruns 1 (by decide) (by decide) (by decide)
  · exact overruns 14 (by decide) (by decide) (by decide)

end NvmeofRaft
