import NvmeofRaft.CopyFootprint
import NvmeofRaft.PlacedPrefix

namespace NvmeofRaft

/-!
# Entries in one extent

A `WritePBA` call carries one device address and one length, so an entry that
crosses an extent cannot be copied.  On a ring file whose extents hold the
largest entry, the extent skip of `persist_circular` keeps every entry in one
extent.
-/

/-- No extent of a tiling ends behind its end. -/
theorem Tiles.ends
    {start : Nat}
    {extents : List Extent}
    {extent : Extent}
    (tiled : Tiles start extents)
    (held : extent ∈ extents) :
    extent.logical + extent.length ≤ extentsEnd start extents := by
  induction extents generalizing start with
  | nil =>
      cases held
  | cons first rest inductionHypothesis =>
      obtain ⟨atStart, -, later⟩ := tiled
      simp only [extentsEnd, List.map_cons, List.sum_cons]
      rcases List.mem_cons.mp held with rfl | inRest
      · omega
      · have ends := inductionHypothesis later inRest
        simp only [extentsEnd] at ends
        omega

theorem Tiles.positive
    {start : Nat}
    {extents : List Extent}
    {extent : Extent}
    (tiled : Tiles start extents)
    (held : extent ∈ extents) :
    0 < extent.length := by
  induction extents generalizing start with
  | nil =>
      cases held
  | cons first rest inductionHypothesis =>
      obtain ⟨-, positive, later⟩ := tiled
      rcases List.mem_cons.mp held with rfl | inRest
      · exact positive
      · exact inductionHypothesis later inRest

/-- Behind an extent of a tiling the next one starts. -/
theorem Tiles.next
    {start : Nat}
    {extents : List Extent}
    {extent : Extent}
    (tiled : Tiles start extents)
    (held : extent ∈ extents)
    (inner : extent.logical + extent.length < extentsEnd start extents) :
    ∃ next ∈ extents,
      next.logical = extent.logical + extent.length ∧
        coveringExtent extents next.logical = some next := by
  have above := tiled.start_le held
  obtain ⟨next, found⟩ :=
    tiled.covered (Nat.le_trans above (Nat.le_add_right _ _)) inner
  obtain ⟨nextHeld, covers⟩ := mem_of_coveringExtent found
  rw [Extent.covers_iff] at covers
  have starts : next.logical = extent.logical + extent.length := by
    by_contra other
    have positive := tiled.positive held
    have last : coveringExtent extents
        (extent.logical + extent.length - 1) = some next :=
      tiled.covering nextHeld (Extent.covers_iff.mpr (by omega))
    have own : coveringExtent extents
        (extent.logical + extent.length - 1) = some extent :=
      tiled.covering held (Extent.covers_iff.mpr (by omega))
    rw [last, Option.some.injEq] at own
    rw [own] at covers
    omega
  exact ⟨next, nextHeld, starts, starts ▸ found⟩

namespace RingLayout

variable {layout : RingLayout}

/-- The slots are inside the ring and their bytes in one extent. -/
structure InOneExtent
    (layout : RingLayout)
    (start needed : Nat) : Prop where
  inRing : start + needed ≤ layout.ringSlots
  inExtent :
    ∃ extent ∈ layout.extents,
      extent.logical ≤ slotOffset start ∧
        slotOffset start + needed * sectorSize ≤
          extent.logical + extent.length

/-- Every extent has room for an entry, the first one behind the header. -/
def RoomFor
    (layout : RingLayout)
    (needed : Nat) : Prop :=
  ∀ extent ∈ layout.extents,
    needed * sectorSize ≤
      extent.length - (if extent.logical = 0 then headerSize else 0)

instance (layout : RingLayout) (needed : Nat) :
    Decidable (layout.RoomFor needed) :=
  inferInstanceAs (Decidable (∀ _ ∈ _, _))

/-- An entry that fits in front of the ring end and the extent end. -/
theorem Tiled.holds
    (tiled : layout.Tiled)
    {start needed : Nat}
    (some : 0 < needed)
    (inRing : start + needed ≤ layout.ringSlots)
    (fits : needed * sectorSize ≤ bytesLeft layout.extents (slotOffset start)) :
    layout.InOneExtent start needed := by
  obtain ⟨extent, found, -, -⟩ := tiled.slot (show start < layout.ringSlots by
    omega)
  obtain ⟨held, covers⟩ := mem_of_coveringExtent found
  rw [Extent.covers_iff] at covers
  rw [bytesLeft_of_covering found] at fits
  exact ⟨inRing, extent, held, covers.1, by omega⟩

/-- The start of the ring holds an entry. -/
theorem Tiled.holds_zero
    (tiled : layout.Tiled)
    {needed : Nat}
    (some : 0 < needed)
    (room : layout.RoomFor needed) :
    layout.InOneExtent 0 needed := by
  have whole := tiled.whole
  obtain ⟨first, found⟩ := tiled.tiled.covered (Nat.le_refl 0) (by
    rw [whole]
    exact Nat.mul_pos (Nat.succ_pos _) (by decide))
  obtain ⟨held, covers⟩ := mem_of_coveringExtent found
  rw [Extent.covers_iff] at covers
  have fits := room first held
  have ends := tiled.tiled.ends held
  have start : first.logical = 0 := Nat.le_zero.mp covers.1
  rw [if_pos start] at fits
  simp only [headerSize, sectorSize] at fits whole
  refine ⟨by omega, first, held, ?_, ?_⟩
  · omega
  · simp only [slotOffset, ringOffset, headerSize, sectorSize]
    omega

/-- Behind an extent that is too short for an entry the next one holds it. -/
theorem Tiled.holds_next
    (tiled : layout.Tiled)
    {slot needed : Nat}
    (room : layout.RoomFor needed)
    (inRing : slot + needed ≤ layout.ringSlots)
    (short :
      bytesLeft layout.extents (slotOffset slot) < needed * sectorSize) :
    layout.InOneExtent
      (slot + bytesLeft layout.extents (slotOffset slot) / sectorSize)
      needed := by
  have some : 0 < needed := by
    by_contra none
    have zero : needed = 0 := by omega
    rw [zero, Nat.zero_mul] at short
    exact absurd short (Nat.not_lt_zero _)
  obtain ⟨extent, found, -, sectors⟩ :=
    tiled.slot (show slot < layout.ringSlots by omega)
  obtain ⟨held, covers⟩ := mem_of_coveringExtent found
  rw [Extent.covers_iff] at covers
  have left := bytesLeft_of_covering found
  have whole := tiled.whole
  obtain ⟨next, nextHeld, starts, -⟩ := tiled.tiled.next held (by
    simp only [slotOffset, ringOffset, headerSize, sectorSize] at *
    omega)
  have fits := room next nextHeld
  have ends := tiled.tiled.ends nextHeld
  have later : next.logical ≠ 0 := by
    simp only [slotOffset, ringOffset, headerSize, sectorSize] at *
    omega
  rw [if_neg later, Nat.sub_zero] at fits
  obtain ⟨count, sectorsLeft⟩ := sectors
  rw [sectorsLeft] at left short ⊢
  rw [Nat.mul_div_cancel_left count (by decide)]
  simp only [slotOffset, ringOffset, headerSize, sectorSize] at *
  refine ⟨by omega, next, nextHeld, ?_, ?_⟩
  · simp only [slotOffset, ringOffset, headerSize, sectorSize]
    omega
  · simp only [slotOffset, ringOffset, headerSize, sectorSize]
    omega

/-- The allocator finds a slot that holds the entry. -/
theorem Tiled.nextSlot_holds
    (tiled : layout.Tiled)
    {slot needed : Nat}
    (some : 0 < needed)
    (room : layout.RoomFor needed) :
    layout.InOneExtent
      (nextSlot layout.ringSlots layout.extents slot needed) needed := by
  have atStart := tiled.holds_zero some room
  have wrapped :
      wrapSlot layout.ringSlots slot needed + needed ≤ layout.ringSlots := by
    unfold wrapSlot
    split
    · exact atStart.inRing
    · omega
  unfold nextSlot
  generalize wrapSlot layout.ringSlots slot needed = start at wrapped
  unfold skipSlot
  by_cases contiguous : layout.extents.length ≤ 1
  · rw [if_pos contiguous]
    have whole := tiled.whole
    have tiles := tiled.tiled
    obtain ⟨extent, found, -, -⟩ := tiled.slot tiled.slots
    have held := (mem_of_coveringExtent found).1
    obtain ⟨only, single⟩ : ∃ only, layout.extents = [only] :=
      List.length_eq_one_iff.mp
        (Nat.le_antisymm contiguous (List.length_pos_of_mem held))
    rw [single] at whole tiles
    have start' : only.logical = 0 := tiles.1
    simp only [extentsEnd, List.map_cons, List.map_nil, List.sum_cons,
      List.sum_nil, sectorSize] at whole
    refine ⟨wrapped, only, single ▸ List.mem_singleton_self only, ?_, ?_⟩
    · omega
    · simp only [slotOffset, ringOffset, headerSize, sectorSize]
      omega
  · rw [if_neg contiguous]
    split
    · rename_i short
      have next := tiled.holds_next room wrapped short
      rw [wrapSlot, if_neg (Nat.not_lt.mpr next.inRing)]
      exact next
    · rename_i fits
      exact tiled.holds some wrapped (Nat.not_lt.mp fits)

end RingLayout

/--
The entries have their slots one behind the other, each inside the ring and
in one extent; a leader has recorded them.
-/
structure Server.AssignsInside
    (before : Server)
    (first : Nat)
    (needs : List Nat)
    (after : Server) : Prop where
  inside :
    ∀ position needed,
      needs[position]? = some needed →
      ∃ start,
        (startSlots before.ring.ringSlots before.io.extents
            before.ring.tailSlot needs)[position]? = some start ∧
          before.layout.InOneExtent start needed ∧
            (before.raft.state = .leader →
              after.ring.logSlotMap.lookup (first + position) =
                some { start, numSlots := needed, state := .using })
  tailSlot :
    after.ring.tailSlot =
      endSlot before.ring.ringSlots before.io.extents before.ring.tailSlot
        needs

section

variable {server : Server} {needs : List Nat}

/-- Entries that have been placed have their slots inside. -/
theorem assignsInside_of_placed
    (tiled : server.layout.Tiled)
    (some : ∀ needed ∈ needs, 0 < needed)
    (room : ∀ needed ∈ needs, server.layout.RoomFor needed)
    {first : Nat}
    {after : Server}
    {view : RunView}
    (ring : view.ring = server.ringView)
    (role : view.role = server.raft.state)
    (placed : after.ringView = (view.placeAll first needs).ring) :
    server.AssignsInside first needs after := by
  constructor
  · intro position needed found
    have held := List.mem_of_getElem? found
    refine ⟨nextSlot server.ring.ringSlots server.io.extents
      (endSlot server.ring.ringSlots server.io.extents
        server.ring.tailSlot (needs.take position)) needed, ?_, ?_, ?_⟩
    · rw [startSlots_getElem?, found]
      rfl
    · exact tiled.nextSlot_holds (some needed held) (room needed held)
    · intro leader
      have slots :
          after.ring.logSlotMap =
            (server.ringView.placeAll first needs).slots :=
        congrArg RingView.slots (placed.trans
          ((RunView.placeAll_ring _ _ _ (role.trans leader)).trans
            (by rw [ring])))
      rw [slots, RingView.placeAll_lookup, found]
      dsimp only
      rw [List.getD_eq_getElem?_getD, startSlots_getElem?, found]
      rfl
  · refine (congrArg RingView.tailSlot placed).trans
      ((RunView.placeAll_tailSlot _ _ _).trans ?_)
    rw [ring]
    rfl

/--
Every entry in one extent: on every ring file whose extents tile it in whole
sectors and hold the largest new entry, from every tail slot on, each entry
that `persist_circular` places, up to a failing call, lies inside the ring and
in one extent.
-/
theorem persistCircular_in_one_extent
    {count : Nat}
    (fresh : 0 < count)
    (tiled : server.layout.Tiled)
    (room :
      ∀ needed ∈ server.lastNeeds count, server.layout.RoomFor needed) :
    ∀ outcomes,
      wp (persistCircular true count)
        (fun _ after =>
          server.AssignsInside (server.firstPersisted count)
            (server.lastNeeds count) after)
        (fun _ after =>
          server.AssignsInside (server.firstPersisted count)
            ((server.withOutcomes outcomes).placedNeeds count) after)
        (server.withOutcomes outcomes) := by
  intro outcomes
  have some : ∀ needed ∈ server.lastNeeds count, 0 < needed := by
    intro needed member
    obtain ⟨entry, -, rfl⟩ := List.mem_map.mp member
    exact slotsForEntry_pos _
  have early :
      ∀ needed ∈ (server.withOutcomes outcomes).placedNeeds count,
        needed ∈ server.lastNeeds count :=
    fun needed member => List.mem_of_mem_take member
  have extents : Tiles 0 (server.withOutcomes outcomes).io.extents :=
    tiled.tiled
  refine wp_mono (persistCircular_ends extents fresh) ?_ ?_
  · rintro _ after ⟨whole, placed⟩
    rw [whole] at placed
    exact assignsInside_of_placed tiled some room rfl rfl placed
  · intro _ after placed
    exact assignsInside_of_placed tiled
      (fun needed member => some needed (early needed member))
      (fun needed member => room needed (early needed member)) rfl rfl placed

end

/-- A leader in front of the end of the first extent. -/
def skippingLeader : Server where
  raft := {
    currentTerm := 1
    id := 1
    log := [{}, { term := 1 }, { command := List.replicate 481 0, term := 1 }]
    state := .leader
    cluster := [{ id := 1 }, { id := 2 }, { id := 3 }]
    clusterIndex := 0 }
  ring := { RingLog.configure {} 2 with
    tailLogIndex := 3
    tailSlot := 6 }
  io := { extents := splitLayout.extents }

theorem skippingLeader_tiled :
    skippingLeader.layout.Tiled :=
  splitLayout_tiled

theorem skippingLeader_needs :
    skippingLeader.lastNeeds 1 = [2] := by
  decide +kernel

/-- An entry of two slots skips the last slot of the first extent. -/
theorem two_slots_in_second_extent :
    startSlots 15 splitLayout.extents 6 [2] = [7] ∧
      ∀ outcomes,
        wp (persistCircular true 1)
          (fun _ after =>
            skippingLeader.AssignsInside (skippingLeader.firstPersisted 1)
              (skippingLeader.lastNeeds 1) after)
          (fun _ after =>
            skippingLeader.AssignsInside (skippingLeader.firstPersisted 1)
              ((skippingLeader.withOutcomes outcomes).placedNeeds 1) after)
          (skippingLeader.withOutcomes outcomes) := by
  have room :
      ∀ needed ∈ skippingLeader.lastNeeds 1,
        skippingLeader.layout.RoomFor needed := by
    rw [skippingLeader_needs]
    decide
  have assigned :=
    @persistCircular_in_one_extent skippingLeader 1 Nat.one_pos
      skippingLeader_tiled room
  refine ⟨by decide +kernel, ?_⟩
  assumption

end NvmeofRaft
