import NvmeofRaft.ExtentMap
import NvmeofRaft.SlotRecords
import NvmeofRaft.Unfailing

namespace NvmeofRaft

/-!
# Where `persist_circular` places entries

When no I/O call fails, a leader places each new entry at a slot that depends
on the tail slot, the ring size and the extents alone: the run buffer and the
extent hint make no difference.
-/

/-- The slot records with the geometry they were placed in. -/
structure RingView where
  slots : SlotMap
  gcUpTo : Nat
  tailSlot : Nat
  tail : Nat
  ringSlots : Nat
  extents : List Extent

/-- The ring view of a server. -/
def Server.ringView (server : Server) : RingView where
  slots := server.ring.logSlotMap
  gcUpTo := server.ring.gcUpTo
  tailSlot := server.ring.tailSlot
  tail := server.ring.tailLogIndex
  ringSlots := server.ring.ringSlots
  extents := server.io.extents

/-- The ring wrap in front of an entry. -/
def wrapSlot
    (ringSlots slot needed : Nat) :
    Nat :=
  if slot + needed > ringSlots then 0 else slot

/-- The extent skip in front of an entry. -/
def skipSlot
    (ringSlots : Nat)
    (extents : List Extent)
    (slot needed : Nat) :
    Nat :=
  if extents.length ≤ 1 then
    slot
  else if bytesLeft extents (slotOffset slot) < needed * sectorSize then
    wrapSlot ringSlots
      (slot + bytesLeft extents (slotOffset slot) / sectorSize) needed
  else
    slot

/-- The slot at which an entry is placed. -/
def nextSlot
    (ringSlots : Nat)
    (extents : List Extent)
    (slot needed : Nat) :
    Nat :=
  skipSlot ringSlots extents (wrapSlot ringSlots slot needed) needed

/-- An entry that fits in front of the ring end and the extent end stays. -/
theorem nextSlot_of_fits
    {ringSlots slot needed : Nat}
    {extents : List Extent}
    (inRing : slot + needed ≤ ringSlots)
    (inExtent :
      needed * sectorSize ≤ bytesLeft extents (slotOffset slot)) :
    nextSlot ringSlots extents slot needed = slot := by
  have stays : wrapSlot ringSlots slot needed = slot :=
    if_neg (Nat.not_lt.mpr inRing)
  rw [nextSlot, stays, skipSlot, if_neg (Nat.not_lt.mpr inExtent), ite_self]

namespace RingView

/-- The slot of the next entry. -/
def nextStart
    (view : RingView)
    (needed : Nat) :
    Nat :=
  nextSlot view.ringSlots view.extents view.tailSlot needed

/-- Place one entry. -/
def place
    (view : RingView)
    (logIdx needed : Nat) :
    RingView :=
  { view with
    slots := view.slots.insert logIdx
      { start := view.nextStart needed, numSlots := needed, state := .using }
    tailSlot := view.nextStart needed + needed }

/-- Set the tail index. -/
def withTail
    (view : RingView)
    (tail : Nat) :
    RingView :=
  { view with tail }

/-- Place entries at consecutive log indices. -/
def placeAll :
    RingView → Nat → List Nat → RingView
  | view, _, [] =>
      view
  | view, logIdx, needed :: rest =>
      placeAll (view.place logIdx needed) (logIdx + 1) rest

/-- Placing entries keeps what placing one entry keeps. -/
theorem placeAll_keeps
    {α : Type}
    (field : RingView → α)
    (kept :
      ∀ (view : RingView) (logIdx needed : Nat),
        field (view.place logIdx needed) = field view)
    (needs : List Nat) :
    ∀ (view : RingView) (logIdx : Nat),
      field (view.placeAll logIdx needs) = field view := by
  induction needs with
  | nil =>
      intro view logIdx
      rfl
  | cons needed rest inductionHypothesis =>
      intro view logIdx
      rw [placeAll, inductionHypothesis, kept]

@[simp] theorem placeAll_tail
    (needs : List Nat)
    (view : RingView)
    (logIdx : Nat) :
    (view.placeAll logIdx needs).tail = view.tail :=
  placeAll_keeps RingView.tail (fun _ _ _ => rfl) needs view logIdx

@[simp] theorem placeAll_extents
    (needs : List Nat)
    (view : RingView)
    (logIdx : Nat) :
    (view.placeAll logIdx needs).extents = view.extents :=
  placeAll_keeps RingView.extents (fun _ _ _ => rfl) needs view logIdx

@[simp] theorem placeAll_ringSlots
    (needs : List Nat)
    (view : RingView)
    (logIdx : Nat) :
    (view.placeAll logIdx needs).ringSlots = view.ringSlots :=
  placeAll_keeps RingView.ringSlots (fun _ _ _ => rfl) needs view logIdx

end RingView

/-- A leader on a tiled ring file whose I/O calls succeed. -/
structure Server.Writable (server : Server) : Prop where
  leader : server.raft.state = .leader
  succeed : server.io.outcomes.succeed = true
  tiled : Tiles 0 server.io.extents

/-- The computation returns, and a writable server stays one. -/
def Returns
    {α : Type}
    (action : Section α)
    (server : Server)
    (returns : α → Server → Prop) : Prop :=
  wp action (fun value final => returns value final ∧ final.Writable)
    (fun _ _ => False) server

section

variable {server : Server}

/-- I/O calls that succeed return and leave the ring alone. -/
theorem returns_of_unfailing
    {α : Type}
    {action : Section α}
    (unfailing : Unfailing action)
    (frames : Frames Server.besidesFile action)
    (writable : server.Writable) :
    Returns action server
      fun _ final => final.ringView = server.ringView := by
  refine wp_mono (wp_and (unfailing server writable.succeed)
    (frames.ends server)) ?_ fun _ _ ends => ends.1
  rintro _ final ⟨succeeds, same⟩
  have ring : final.besidesFile.ringView = server.besidesFile.ringView := by
    rw [same]
  have role :
      final.besidesFile.raft.state = server.besidesFile.raft.state := by
    rw [same]
  have extents : final.io.extents = server.io.extents :=
    congrArg RingView.extents ring
  exact ⟨ring, role.trans writable.leader, succeeds,
    extents ▸ writable.tiled⟩

theorem writeAtFile_ring
    (writable : server.Writable)
    (data : List UInt8)
    (offset : Nat) :
    Returns (writeAtFile data offset) server
      fun _ final => final.ringView = server.ringView :=
  returns_of_unfailing (writeAtFile_unfailing data offset)
    (writeAtFile_besidesFile data offset) writable

theorem flushRun_ring
    (writable : server.Writable)
    (runOff : Nat) :
    Returns (flushRun runOff) server
      fun _ final => final.ringView = server.ringView := by
  simp only [Returns, flushRun, modifyRing, wp_bind, wp_get, wp_ite, wp_pure,
    wp_modify]
  split
  · exact ⟨trivial, writable⟩
  · refine wp_mono (writeAtFile_ring writable _ _) ?_ fun _ _ never => never
    rintro _ final ⟨same, kept⟩
    exact ⟨same, kept.leader, kept.succeed, kept.tiled⟩

theorem wrapTail_ring
    (writable : server.Writable)
    (needed runOff : Nat) :
    Returns (wrapTail needed runOff) server fun _ final =>
      final.ringView =
        { server.ringView with
          tailSlot :=
            wrapSlot server.ring.ringSlots server.ring.tailSlot needed } := by
  simp only [Returns, wrapTail, modifyRing, wp_bind, wp_get, wp_ite, wp_pure,
    wp_modify]
  split
  · rename_i wraps
    refine wp_mono (flushRun_ring writable runOff) ?_ fun _ _ never => never
    rintro _ final ⟨same, kept⟩
    refine ⟨?_, kept.leader, kept.succeed, kept.tiled⟩
    rw [wrapSlot, if_pos wraps, ← same]
    rfl
  · rename_i fits
    refine ⟨?_, writable⟩
    rw [wrapSlot, if_neg fits]
    rfl

theorem skipExtentEnd_ring
    (writable : server.Writable)
    (needed runOff : Nat)
    (extHint : Int) :
    Returns (skipExtentEnd needed runOff extHint) server fun _ final =>
      final.ringView =
        { server.ringView with
          tailSlot :=
            skipSlot server.ring.ringSlots server.io.extents
              server.ring.tailSlot needed } := by
  have left := writable.tiled.remainingAt
    (slotOffset server.ring.tailSlot) extHint
  simp only [Returns, skipExtentEnd, modifyRing, wp_bind, wp_get, wp_ite,
    wp_pure, wp_modify, StorageIo.isContiguous, decide_eq_true_eq, left]
  unfold skipSlot
  split_ifs with contiguous short
  · exact ⟨rfl, writable⟩
  · refine wp_mono (flushRun_ring writable runOff) ?_ fun _ _ never => never
    rintro _ final ⟨same, kept⟩
    refine ⟨?_, kept.leader, kept.succeed, kept.tiled⟩
    have sameTail : final.ring.tailSlot = server.ring.tailSlot :=
      congrArg RingView.tailSlot same
    have sameSlots : final.ring.ringSlots = server.ring.ringSlots :=
      congrArg RingView.ringSlots same
    rw [← same, wrapSlot, ← sameTail, ← sameSlots]
    rfl
  · exact ⟨rfl, writable⟩

theorem placeEntry_ring
    (writable : server.Writable)
    (entry : Entry)
    (needed logIdx runOff : Nat) :
    Returns (placeEntry entry needed logIdx runOff) server fun _ final =>
      final.ringView =
        { server.ringView with
          slots := server.ring.logSlotMap.insert logIdx
            { start := server.ring.tailSlot
              numSlots := needed
              state := .using }
          tailSlot := server.ring.tailSlot + needed } := by
  simp only [Returns, placeEntry, modifyRing, wp_bind, wp_get, wp_ite,
    wp_pure, wp_modify, writable.leader, if_true]
  exact ⟨rfl, writable.leader, writable.succeed, writable.tiled⟩

theorem persistEntry_ring
    (writable : server.Writable)
    (entry : Entry)
    (logIdx : Nat)
    (cursor : Nat × Int) :
    Returns (persistEntry entry logIdx cursor) server fun _ final =>
      final.ringView =
        server.ringView.place logIdx
          (slotsForEntry entry.command.length) := by
  simp only [Returns, persistEntry, wp_bind, wp_pure]
  refine wp_mono (wrapTail_ring writable _ _) ?_ fun _ _ never => never
  rintro _ wrapped ⟨wrapSame, wrapKept⟩
  refine wp_mono (skipExtentEnd_ring wrapKept _ _ _) ?_ fun _ _ never => never
  rintro _ skipped ⟨skipSame, skipKept⟩
  refine wp_mono (placeEntry_ring skipKept _ _ _ _) ?_ fun _ _ never => never
  rintro _ placed ⟨placeSame, placeKept⟩
  refine ⟨?_, placeKept⟩
  have wrapTail := congrArg RingView.tailSlot wrapSame
  have wrapSlots := congrArg RingView.ringSlots wrapSame
  have wrapExtents := congrArg RingView.extents wrapSame
  have skipTail := congrArg RingView.tailSlot skipSame
  have skipMap := congrArg RingView.slots (skipSame.trans (by rw [wrapSame]))
  simp only [Server.ringView] at wrapTail wrapSlots wrapExtents skipTail skipMap
  rw [placeSame, skipSame, wrapSame]
  simp only [RingView.place, RingView.nextStart, nextSlot, Server.ringView,
    skipTail, skipMap, wrapTail, wrapSlots, wrapExtents]

theorem persistEntries_ring :
    ∀ (entries : List Entry) (logIdx : Nat) (cursor : Nat × Int)
      {server : Server},
      server.Writable →
      Returns (persistEntries entries logIdx cursor) server fun _ final =>
        final.ringView =
          server.ringView.placeAll logIdx
            (entries.map fun entry =>
              slotsForEntry entry.command.length) := by
  intro entries
  induction entries with
  | nil =>
      intro logIdx cursor server writable
      exact ⟨rfl, writable⟩
  | cons entry rest inductionHypothesis =>
      intro logIdx cursor server writable
      simp only [Returns, persistEntries, wp_bind]
      refine wp_mono (persistEntry_ring writable entry logIdx cursor) ?_
        fun _ _ never => never
      rintro _ placed ⟨same, kept⟩
      refine wp_mono (inductionHypothesis _ _ kept) ?_ fun _ _ never => never
      rintro _ final ⟨ends, finished⟩
      refine ⟨?_, finished⟩
      rw [ends, same]
      rfl

/-- The slot counts of the last entries of the log. -/
def Server.lastNeeds
    (server : Server)
    (count : Nat) :
    List Nat :=
  (server.raft.log.drop (max 1 (server.raft.log.length - count))).map
    fun entry => slotsForEntry entry.command.length

theorem persistLog_ring
    (writable : server.Writable)
    (count : Nat) :
    Returns (persistLog count) server fun _ final =>
      final.ringView =
        server.ringView.placeAll (server.firstPersisted count)
          (server.lastNeeds count) := by
  simp only [Returns, persistLog, modifyRing, wp_bind, wp_get, wp_modify,
    wp_discard]
  refine wp_mono (persistEntries_ring _ _ _ ?_) ?_ fun _ _ never => never
  · exact ⟨writable.leader, writable.succeed, writable.tiled⟩
  · rintro cursor placed ⟨same, kept⟩
    refine wp_mono (flushRun_ring kept _) ?_ fun _ _ never => never
    rintro _ final ⟨flushed, finished⟩
    exact ⟨flushed.trans same, finished⟩

theorem persistSync_ring
    (writable : server.Writable)
    (logging : Bool) :
    Returns (persistSync logging) server
      fun _ final => final.ringView = server.ringView :=
  returns_of_unfailing (persistSync_unfailing logging)
    (persistSync_besidesFile logging) writable

/-- `persist_circular` places the new entries. -/
theorem persistCircular_ring
    (writable : server.Writable)
    {count : Nat}
    (some : 0 < count) :
    Returns (persistCircular true count) server fun _ final =>
      final.ringView =
        server.ringView.placeAll (server.firstPersisted count)
          (server.lastNeeds count) := by
  simp only [Returns, persistCircular, wp_bind, wp_get, wp_modify,
    Nat.ne_of_gt some, false_and, if_false, true_and, some, if_true]
  refine wp_mono (persistLog_ring writable count) ?_ fun _ _ never => never
  rintro _ logged ⟨same, kept⟩
  refine wp_mono (persistSync_ring kept true) ?_ fun _ _ never => never
  rintro _ synced ⟨syncSame, syncKept⟩
  exact ⟨syncSame.trans same, syncKept.leader, syncKept.succeed,
    syncKept.tiled⟩

end

end NvmeofRaft
