import NvmeofRaft.RingAllocator

namespace NvmeofRaft

/-!
# What a failing persist has placed

The slot allocator of `persist_circular` advances entry by entry; the bytes
reach the file only when the run ends.  A run ends in front of an entry that
wraps or skips to the next extent, and behind the last entry.  When the write
of a run fails, the entries in front of that point have their slots already.
-/

/-- The start slots of entries that are placed one behind the other. -/
def startSlots
    (ringSlots : Nat)
    (extents : List Extent) :
    Nat → List Nat → List Nat
  | _, [] =>
      []
  | slot, needed :: rest =>
      let start := nextSlot ringSlots extents slot needed
      start :: startSlots ringSlots extents (start + needed) rest

/-- The tail slot behind them. -/
def endSlot
    (ringSlots : Nat)
    (extents : List Extent) :
    Nat → List Nat → Nat
  | slot, [] =>
      slot
  | slot, needed :: rest =>
      endSlot ringSlots extents
        (nextSlot ringSlots extents slot needed + needed) rest

section

variable {ringSlots : Nat} {extents : List Extent}

theorem startSlots_length
    (needs : List Nat) :
    ∀ slot,
      (startSlots ringSlots extents slot needs).length = needs.length := by
  induction needs with
  | nil =>
      intro slot
      rfl
  | cons needed rest inductionHypothesis =>
      intro slot
      rw [startSlots, List.length_cons, List.length_cons,
        inductionHypothesis]

/-- Each entry starts where the ones in front of it end. -/
theorem startSlots_getElem?
    (needs : List Nat) :
    ∀ slot position,
      (startSlots ringSlots extents slot needs)[position]? =
        needs[position]?.map fun needed =>
          nextSlot ringSlots extents
            (endSlot ringSlots extents slot (needs.take position))
            needed := by
  induction needs with
  | nil =>
      intro slot position
      rfl
  | cons needed rest inductionHypothesis =>
      intro slot position
      cases position with
      | zero =>
          rfl
      | succ position =>
          rw [startSlots, List.getElem?_cons_succ, inductionHypothesis,
            List.getElem?_cons_succ, List.take_succ_cons]
          rfl

/-- The first entries start where they start without the others. -/
theorem startSlots_take
    (needs : List Nat) :
    ∀ slot count,
      startSlots ringSlots extents slot (needs.take count) =
        (startSlots ringSlots extents slot needs).take count := by
  induction needs with
  | nil =>
      intro slot count
      rw [List.take_nil, startSlots, List.take_nil]
  | cons needed rest inductionHypothesis =>
      intro slot count
      cases count with
      | zero =>
          rfl
      | succ count =>
          rw [List.take_succ_cons, startSlots, startSlots,
            List.take_succ_cons, inductionHypothesis]

end

namespace RingView

theorem placeAll_tailSlot
    (needs : List Nat) :
    ∀ (view : RingView) (logIdx : Nat),
      (view.placeAll logIdx needs).tailSlot =
        endSlot view.ringSlots view.extents view.tailSlot needs := by
  induction needs with
  | nil =>
      intro view logIdx
      rfl
  | cons needed rest inductionHypothesis =>
      intro view logIdx
      rw [placeAll, inductionHypothesis]
      rfl

/-- Placing entries leaves the other indices alone. -/
theorem placeAll_lookup_before
    (needs : List Nat) :
    ∀ (view : RingView) {logIdx index : Nat},
      index < logIdx →
      (view.placeAll logIdx needs).slots.lookup index =
        view.slots.lookup index := by
  induction needs with
  | nil =>
      intro view logIdx index _
      rfl
  | cons needed rest inductionHypothesis =>
      intro view logIdx index before
      rw [placeAll, inductionHypothesis _ (Nat.lt_succ_of_lt before)]
      exact AList.lookup_insert_ne (Nat.ne_of_lt before)

/-- The record of an index after entries have been placed. -/
theorem placeAll_lookup
    (needs : List Nat) :
    ∀ (view : RingView) (logIdx position : Nat),
      (view.placeAll logIdx needs).slots.lookup (logIdx + position) =
        match needs[position]? with
        | some needed =>
            some {
              start :=
                (startSlots view.ringSlots view.extents view.tailSlot
                  needs).getD position 0
              numSlots := needed
              state := .using }
        | none => view.slots.lookup (logIdx + position) := by
  induction needs with
  | nil =>
      intro view logIdx position
      rfl
  | cons needed rest inductionHypothesis =>
      intro view logIdx position
      cases position with
      | zero =>
          rw [placeAll, Nat.add_zero,
            placeAll_lookup_before _ _ (Nat.lt_succ_self _)]
          exact AList.lookup_insert _
      | succ position =>
          have index : logIdx + (position + 1) = logIdx + 1 + position := by
            omega
          rw [placeAll, index, inductionHypothesis,
            List.getElem?_cons_succ]
          cases rest[position]? with
          | some later =>
              rfl
          | none =>
              exact AList.lookup_insert_ne (by omega)

/-- The record of an entry of the placed part of a batch. -/
theorem placeAll_take_lookup
    (view : RingView)
    (first : Nat)
    {needs : List Nat}
    {count position needed : Nat}
    (found : (needs.take count)[position]? = some needed) :
    (view.placeAll first (needs.take count)).slots.lookup
        (first + position) =
      some {
        start :=
          (startSlots view.ringSlots view.extents view.tailSlot needs).getD
            position 0
        numSlots := needed
        state := .using } := by
  have inside : position < count := by
    by_contra beyond
    rw [List.getElem?_take_eq_none (Nat.not_lt.mp beyond)] at found
    cases found
  rw [placeAll_lookup, found, startSlots_take]
  dsimp only
  rw [List.getD_eq_getElem?_getD, List.getElem?_take_of_lt inside,
    List.getD_eq_getElem?_getD]

end RingView

/-- The ring with what the flushes go by. -/
structure RunView where
  ring : RingView
  role : ServerState
  buffered : Bool
  writes : List WriteOutcome

/-- The run view of a server. -/
def Server.runView (server : Server) : RunView where
  ring := server.ringView
  role := server.raft.state
  buffered := !server.ring.runBuf.data.isEmpty
  writes := server.io.outcomes.writes

namespace RunView

/-- The wrap or the extent skip ends the run in front of an entry. -/
def endsRun
    (view : RunView)
    (needed : Nat) :
    Bool :=
  let wrapped := wrapSlot view.ring.ringSlots view.ring.tailSlot needed
  decide (view.ring.tailSlot + needed > view.ring.ringSlots) ||
    (decide (1 < view.ring.extents.length) &&
      decide (bytesLeft view.ring.extents (slotOffset wrapped) <
        needed * sectorSize))

/-- A flush writes nothing or succeeds. -/
def flushes (view : RunView) : Bool :=
  !view.buffered || decide (view.writes.headD .done = .done)

/-- Write the run that is buffered. -/
def flush (view : RunView) : RunView :=
  if view.buffered then
    { view with buffered := false, writes := view.writes.tail }
  else
    view

theorem flush_ring
    (view : RunView) :
    view.flush.ring = view.ring := by
  unfold flush
  split <;> rfl

/-- Move the tail slot. -/
def moveTo
    (view : RunView)
    (slot : Nat) :
    RunView :=
  { view with ring := { view.ring with tailSlot := slot } }

theorem flush_moveTo
    (view : RunView)
    (slot : Nat) :
    (view.moveTo slot).flush = view.flush.moveTo slot := by
  unfold flush moveTo
  dsimp only
  split <;> rfl

/-- Flushing leaves the ring alone, also where it depends on a condition. -/
theorem ifFlush_ring
    (view : RunView)
    (condition : Prop)
    [Decidable condition] :
    (if condition then view.flush else view).ring = view.ring := by
  split
  · exact view.flush_ring
  · rfl

theorem flush_role
    (view : RunView) :
    view.flush.role = view.role := by
  unfold flush
  split <;> rfl

theorem flush_buffered
    (view : RunView) :
    view.flush.buffered = false := by
  unfold flush
  split
  · rfl
  · rename_i empty
    exact eq_false_of_ne_true empty

/-- An empty buffer is not flushed again. -/
theorem flush_flush
    (view : RunView) :
    view.flush.flush = view.flush := by
  have empty := view.flush_buffered
  generalize view.flush = flushed at empty
  rw [flush, empty]
  rfl

theorem flushes_flush
    (view : RunView) :
    view.flush.flushes = true := by
  rw [flushes, flush_buffered]
  rfl

/-- Two flushes with nothing in between are one. -/
theorem ifFlush_ifFlush
    (view : RunView)
    (slot : Nat)
    (first second : Prop)
    [Decidable first]
    [Decidable second] :
    (if second then
        ((if first then view.flush else view).moveTo slot).flush
      else
        (if first then view.flush else view).moveTo slot) =
      (if first ∨ second then view.flush else view).moveTo slot := by
  by_cases early : first
  · rw [if_pos early, if_pos (Or.inl early), flush_moveTo, flush_flush,
      ite_self]
  · rw [if_neg early, flush_moveTo]
    by_cases late : second
    · rw [if_pos late, if_pos (Or.inr late)]
    · rw [if_neg late, if_neg (not_or.mpr ⟨early, late⟩)]

/-- Buffer an entry at the tail slot; only a leader records its slots. -/
def buffer
    (view : RunView)
    (logIdx needed : Nat) :
    RunView :=
  { view with
    ring := { view.ring with
      slots :=
        if view.role = .leader then
          view.ring.slots.insert logIdx
            { start := view.ring.tailSlot
              numSlots := needed
              state := .using }
        else
          view.ring.slots
      tailSlot := view.ring.tailSlot + needed }
    buffered := true }

/-- Place one entry. -/
def place
    (view : RunView)
    (logIdx needed : Nat) :
    RunView :=
  let flushed := if view.endsRun needed then view.flush else view
  (flushed.moveTo (view.ring.nextStart needed)).buffer logIdx needed

/-- Place entries at consecutive log indices. -/
def placeAll :
    RunView → Nat → List Nat → RunView
  | view, _, [] =>
      view
  | view, logIdx, needed :: rest =>
      placeAll (view.place logIdx needed) (logIdx + 1) rest

/-- How many entries are placed in front of the first flush that fails. -/
def placedCount :
    RunView → Nat → List Nat → Nat
  | _, _, [] =>
      0
  | view, logIdx, needed :: rest =>
      if view.endsRun needed && !view.flushes then
        0
      else
        placedCount (view.place logIdx needed) (logIdx + 1) rest + 1

theorem place_role
    (view : RunView)
    (logIdx needed : Nat) :
    (view.place logIdx needed).role = view.role := by
  unfold place
  dsimp only
  split
  · exact view.flush_role
  · rfl

theorem place_geometry
    (view : RunView)
    (logIdx needed : Nat) :
    (view.place logIdx needed).ring.ringSlots = view.ring.ringSlots ∧
      (view.place logIdx needed).ring.extents = view.ring.extents := by
  have flushed := view.ifFlush_ring (view.endsRun needed = true)
  unfold place buffer moveTo
  dsimp only
  rw [flushed]
  exact ⟨rfl, rfl⟩

/-- Once no write is left to fail, none fails later. -/
theorem place_writes
    {view : RunView}
    (none : view.writes = [])
    (logIdx needed : Nat) :
    (view.place logIdx needed).writes = [] := by
  have flushed : view.flush.writes = [] := by
    unfold flush
    split
    · exact congrArg List.tail none
    · exact none
  show (if view.endsRun needed = true then view.flush else view).writes = []
  split
  · exact flushed
  · exact none

/-- With writes that succeed every entry is placed. -/
theorem placedCount_of_done
    (needs : List Nat) :
    ∀ {view : RunView} (logIdx : Nat),
      view.writes = [] →
      view.placedCount logIdx needs = needs.length := by
  induction needs with
  | nil =>
      intro view logIdx _
      rfl
  | cons needed rest inductionHypothesis =>
      intro view logIdx none
      have flushes : view.flushes = true := by
        rw [RunView.flushes, none]
        exact Bool.or_true _
      rw [placedCount, flushes, Bool.not_true, Bool.and_false,
        if_neg Bool.false_ne_true,
        inductionHypothesis _ (place_writes none logIdx needed),
        List.length_cons]

/-- Every role moves the tail slot. -/
theorem placeAll_tailSlot
    (needs : List Nat) :
    ∀ (view : RunView) (logIdx : Nat),
      (view.placeAll logIdx needs).ring.tailSlot =
        endSlot view.ring.ringSlots view.ring.extents view.ring.tailSlot
          needs := by
  induction needs with
  | nil =>
      intro view logIdx
      rfl
  | cons needed rest inductionHypothesis =>
      intro view logIdx
      obtain ⟨ringSlots, extents⟩ := view.place_geometry logIdx needed
      rw [placeAll, inductionHypothesis, ringSlots, extents]
      rfl

/-- What a leader places. -/
theorem place_ring
    {view : RunView}
    (leader : view.role = .leader)
    (logIdx needed : Nat) :
    (view.place logIdx needed).ring = view.ring.place logIdx needed := by
  unfold place buffer moveTo
  dsimp only
  split
  · rw [view.flush_role, if_pos leader, view.flush_ring]
    rfl
  · rfl

theorem placeAll_ring
    (needs : List Nat) :
    ∀ (view : RunView) (logIdx : Nat),
      view.role = .leader →
      (view.placeAll logIdx needs).ring = view.ring.placeAll logIdx needs := by
  induction needs with
  | nil =>
      intro view logIdx _
      rfl
  | cons needed rest inductionHypothesis =>
      intro view logIdx leader
      rw [placeAll, inductionHypothesis _ _
        ((view.place_role logIdx needed).trans leader), place_ring leader]
      rfl

end RunView

section

variable {server : Server}

theorem writeAtFile_ends
    (data : List UInt8)
    (offset : Nat)
    (server : Server) :
    wp (writeAtFile data offset)
      (fun _ final =>
        server.io.outcomes.writes.headD .done = .done ∧
          final.io.outcomes.writes = server.io.outcomes.writes.tail)
      (fun _ _ => server.io.outcomes.writes.headD .done ≠ .done)
      server := by
  simp only [writeAtFile, nextWriteOutcome, wp_bind, wp_get, wp_modify,
    wp_pure]
  cases server.io.outcomes.writes.headD .done with
  | done =>
      exact ⟨rfl, rfl⟩
  | fails landed =>
      simp only [wp_bind, wp_modify, wp_throw]
      exact fun same => WriteOutcome.noConfusion same

/-- The file and the header cache are no part of the ring view. -/
theorem same_ringView
    {first second : Server}
    (same : first.besidesFile = second.besidesFile) :
    first.ringView = second.ringView := by
  show first.besidesFile.ringView = second.besidesFile.ringView
  rw [same]

theorem flushRun_ends
    (runOff : Nat)
    (server : Server) :
    wp (flushRun runOff)
      (fun _ final =>
        server.runView.flushes = true ∧
          final.runView = server.runView.flush)
      (fun _ final =>
        server.runView.flushes = false ∧
          final.ringView = server.ringView) server := by
  simp only [flushRun, modifyRing, wp_bind, wp_get, wp_ite, wp_pure,
    wp_modify]
  cases empty : server.ring.runBuf.data.isEmpty with
  | true =>
      have still : server.runView.buffered = false := by
        simp only [Server.runView, empty, Bool.not_true]
      refine ⟨?_, ?_⟩
      · rw [RunView.flushes, still]
        rfl
      · rw [RunView.flush, still]
        rfl
  | false =>
      have buffered : server.runView.buffered = true := by
        simp only [Server.runView, empty, Bool.not_false]
      refine wp_mono (wp_and (writeAtFile_ends _ _ server)
        ((writeAtFile_besidesFile _ _).ends server)) ?_ ?_
      · rintro _ final ⟨⟨done, writes⟩, same⟩
        have ring : final.ringView = server.ringView := same_ringView same
        have role : final.raft.state = server.raft.state := by
          show final.besidesFile.raft.state = _
          rw [same]
          rfl
        refine ⟨?_, ?_⟩
        · have written : decide (server.runView.writes.headD .done = .done) =
              true := decide_eq_true done
          rw [RunView.flushes, written, Bool.or_true]
        · rw [RunView.flush, buffered, if_pos rfl]
          show ({
            ring := final.ringView
            role := final.raft.state
            buffered := false
            writes := final.io.outcomes.writes } : RunView) = _
          rw [ring, role, writes]
          rfl
      · rintro _ final ⟨fails, same⟩
        have refused : decide (server.runView.writes.headD .done = .done) =
            false := decide_eq_false fails
        refine ⟨?_, same_ringView same⟩
        rw [RunView.flushes, buffered, refused]
        rfl

theorem wrapTail_ends
    (needed runOff : Nat)
    (server : Server) :
    let wraps := server.ring.tailSlot + needed > server.ring.ringSlots
    wp (wrapTail needed runOff)
      (fun _ final =>
        (wraps → server.runView.flushes = true) ∧
          final.runView =
            (if wraps then server.runView.flush else server.runView).moveTo
              (wrapSlot server.ring.ringSlots server.ring.tailSlot needed))
      (fun _ final =>
        wraps ∧ server.runView.flushes = false ∧
          final.ringView = server.ringView) server := by
  intro wraps
  simp only [wrapTail, modifyRing, wp_bind, wp_get, wp_ite, wp_pure,
    wp_modify]
  split
  · rename_i beyond
    refine wp_mono (flushRun_ends runOff server) ?_ ?_
    · rintro _ final ⟨flushes, flushed⟩
      refine ⟨fun _ => flushes, ?_⟩
      rw [wrapSlot, if_pos beyond, ← flushed]
      rfl
    · rintro _ final ⟨fails, same⟩
      exact ⟨beyond, fails, same⟩
  · rename_i fits
    refine ⟨fun beyond => absurd beyond fits, ?_⟩
    rw [wrapSlot, if_neg fits]
    rfl

theorem skipExtentEnd_ends
    (tiled : Tiles 0 server.io.extents)
    (needed runOff : Nat)
    (extHint : Int) :
    let skips :=
      1 < server.io.extents.length ∧
        bytesLeft server.io.extents (slotOffset server.ring.tailSlot) <
          needed * sectorSize
    wp (skipExtentEnd needed runOff extHint)
      (fun _ final =>
        (skips → server.runView.flushes = true) ∧
          final.runView =
            (if skips then server.runView.flush else server.runView).moveTo
              (skipSlot server.ring.ringSlots server.io.extents
                server.ring.tailSlot needed))
      (fun _ final =>
        skips ∧ server.runView.flushes = false ∧
          final.ringView = server.ringView) server := by
  intro skips
  have left := tiled.remainingAt (slotOffset server.ring.tailSlot) extHint
  simp only [skipExtentEnd, modifyRing, wp_bind, wp_get, wp_ite, wp_pure,
    wp_modify, StorageIo.isContiguous, decide_eq_true_eq, left]
  unfold skipSlot
  by_cases contiguous : server.io.extents.length ≤ 1
  · have stays : ¬ skips := fun goes => absurd goes.1 (by omega)
    rw [if_pos contiguous, if_neg stays, if_pos contiguous]
    exact ⟨fun goes => absurd goes stays, rfl⟩
  · by_cases short :
      bytesLeft server.io.extents (slotOffset server.ring.tailSlot) <
        needed * sectorSize
    · have goes : skips := ⟨by omega, short⟩
      rw [if_neg contiguous, if_pos short, if_pos goes, if_neg contiguous,
        if_pos short]
      refine wp_mono (flushRun_ends runOff server) ?_ ?_
      · rintro _ final ⟨flushes, flushed⟩
        refine ⟨fun _ => flushes, ?_⟩
        have sameRing : final.ringView = server.ringView :=
          (congrArg RunView.ring flushed).trans server.runView.flush_ring
        have sameTail : final.ring.tailSlot = server.ring.tailSlot :=
          congrArg RingView.tailSlot sameRing
        have sameSlots : final.ring.ringSlots = server.ring.ringSlots :=
          congrArg RingView.ringSlots sameRing
        rw [wrapSlot, ← sameTail, ← sameSlots, ← flushed]
        rfl
      · rintro _ final ⟨fails, same⟩
        exact ⟨goes, fails, same⟩
    · have stays : ¬ skips := fun goes => short goes.2
      rw [if_neg contiguous, if_neg short, if_neg stays, if_neg contiguous,
        if_neg short]
      exact ⟨fun goes => absurd goes stays, rfl⟩

theorem placeEntry_ends
    (entry : Entry)
    (needed logIdx runOff : Nat)
    (server : Server) :
    wp (placeEntry entry needed logIdx runOff)
      (fun _ final => final.runView = server.runView.buffer logIdx needed)
      (fun _ _ => False) server := by
  have filled :
      (server.ring.runBuf.data ++ encodeEntry entry needed logIdx).isEmpty =
        false := by
    rw [encodeEntry, putU64Le]
    simp
  simp only [placeEntry, modifyRing, wp_bind, wp_get, wp_ite, wp_pure,
    wp_modify]
  split
  · rename_i leader
    have records : server.runView.role = .leader := leader
    rw [RunView.buffer, if_pos records]
    simp only [Server.runView, Server.ringView, filled, Bool.not_false]
  · rename_i other
    have keeps : ¬ server.runView.role = .leader := other
    rw [RunView.buffer, if_neg keeps]
    simp only [Server.runView, Server.ringView, filled, Bool.not_false]

/-- One entry is placed, or the flush in front of it fails. -/
theorem persistEntry_ends
    (tiled : Tiles 0 server.io.extents)
    (entry : Entry)
    (logIdx : Nat)
    (cursor : Nat × Int) :
    let needed := slotsForEntry entry.command.length
    wp (persistEntry entry logIdx cursor)
      (fun _ final =>
        (server.runView.endsRun needed && !server.runView.flushes) = false ∧
          final.runView = server.runView.place logIdx needed)
      (fun _ final =>
        (server.runView.endsRun needed && !server.runView.flushes) = true ∧
          final.ringView = server.ringView) server := by
  intro needed
  have ends :
      server.runView.endsRun needed = true ↔
        server.ring.tailSlot + needed > server.ring.ringSlots ∨
          1 < server.io.extents.length ∧
            bytesLeft server.io.extents
                (slotOffset (wrapSlot server.ring.ringSlots
                  server.ring.tailSlot needed)) <
              needed * sectorSize := by
    rw [RunView.endsRun, Bool.or_eq_true, Bool.and_eq_true,
      decide_eq_true_iff, decide_eq_true_iff, decide_eq_true_iff]
    exact Iff.rfl
  simp only [persistEntry, wp_bind, wp_pure]
  refine wp_mono (wrapTail_ends needed cursor.1 server) ?_ ?_
  · rintro runOff wrapped ⟨wrapFlushes, wrapView⟩
    have tail :
        wrapped.ring.tailSlot =
          wrapSlot server.ring.ringSlots server.ring.tailSlot needed :=
      congrArg (fun view : RunView => view.ring.tailSlot) wrapView
    have geometry :
        wrapped.ring.ringSlots = server.ring.ringSlots ∧
          wrapped.io.extents = server.io.extents := by
      have ringSlots :=
        congrArg (fun view : RunView => view.ring.ringSlots) wrapView
      have extents :=
        congrArg (fun view : RunView => view.ring.extents) wrapView
      rw [RunView.moveTo, RunView.ifFlush_ring] at ringSlots extents
      exact ⟨ringSlots, extents⟩
    obtain ⟨ringSlots, extents⟩ := geometry
    have skip :=
      skipExtentEnd_ends (extents ▸ tiled) needed runOff cursor.2
    rw [ringSlots, extents, tail] at skip
    refine wp_mono skip ?_ ?_
    · rintro cursor skipped ⟨skipFlushes, skipView⟩
      refine wp_mono (placeEntry_ends entry needed logIdx cursor.1 skipped) ?_
        fun _ _ never => never.elim
      intro _ placed placedView
      have flushed :
          skipped.runView =
            (if server.runView.endsRun needed then
              server.runView.flush
            else
              server.runView).moveTo
                (server.ringView.nextStart needed) := by
        rw [skipView, wrapView, RunView.ifFlush_ifFlush]
        simp only [ends]
        rfl
      refine ⟨?_, ?_⟩
      · rw [Bool.and_eq_false_iff, Bool.not_eq_false']
        by_cases wraps :
          server.ring.tailSlot + needed > server.ring.ringSlots
        · exact Or.inr (wrapFlushes wraps)
        · rw [wrapView, if_neg wraps] at skipFlushes
          by_cases ended : server.runView.endsRun needed = true
          · rcases ends.mp ended with beyond | skips
            · exact absurd beyond wraps
            · exact Or.inr (skipFlushes skips)
          · exact Or.inl (eq_false_of_ne_true ended)
      · rw [placedView, flushed]
        rfl
    · rintro _ final ⟨skips, fails, same⟩
      by_cases wraps :
        server.ring.tailSlot + needed > server.ring.ringSlots
      · rw [wrapView, if_pos wraps] at fails
        exact absurd (server.runView.flushes_flush.symm.trans fails)
          Bool.true_eq_false_eq_False
      · rw [wrapView, if_neg wraps] at fails
        have stays :
            wrapSlot server.ring.ringSlots server.ring.tailSlot needed =
              server.ring.tailSlot :=
          if_neg wraps
        have refused : server.runView.flushes = false := fails
        refine ⟨?_, ?_⟩
        · rw [ends.mpr (Or.inr skips), refused]
          rfl
        · rw [if_neg wraps, stays] at wrapView
          exact same.trans (congrArg RunView.ring wrapView)
  · rintro _ final ⟨wraps, fails, same⟩
    refine ⟨?_, same⟩
    rw [ends.mpr (Or.inl wraps), fails]
    rfl

theorem persistEntries_ends :
    ∀ (entries : List Entry) (logIdx : Nat) (cursor : Nat × Int)
      {server : Server},
      Tiles 0 server.io.extents →
      let needs := entries.map fun entry =>
        slotsForEntry entry.command.length
      wp (persistEntries entries logIdx cursor)
        (fun _ final =>
          server.runView.placedCount logIdx needs = needs.length ∧
            final.runView = server.runView.placeAll logIdx needs)
        (fun _ final =>
          final.ringView =
            (server.runView.placeAll logIdx
              (needs.take (server.runView.placedCount logIdx needs))).ring)
        server := by
  intro entries
  induction entries with
  | nil =>
      intro logIdx cursor server _ needs
      exact ⟨rfl, rfl⟩
  | cons entry rest inductionHypothesis =>
      intro logIdx cursor server tiled needs
      simp only [persistEntries, wp_bind]
      refine wp_mono (persistEntry_ends tiled entry logIdx cursor) ?_ ?_
      · rintro cursor placed ⟨goesOn, placedView⟩
        have extents : placed.io.extents = server.io.extents :=
          (congrArg (fun view : RunView => view.ring.extents)
            placedView).trans (RunView.place_geometry _ _ _).2
        have counts :
            server.runView.placedCount logIdx needs =
              placed.runView.placedCount (logIdx + 1)
                (rest.map fun entry =>
                  slotsForEntry entry.command.length) + 1 := by
          rw [placedView]
          show RunView.placedCount server.runView logIdx (_ :: _) = _
          rw [RunView.placedCount, if_neg (ne_true_of_eq_false goesOn)]
        refine wp_mono
          (inductionHypothesis (logIdx + 1) cursor (extents ▸ tiled)) ?_ ?_
        · rintro _ final ⟨all, finalView⟩
          refine ⟨?_, ?_⟩
          · rw [counts, all]
            rfl
          · rw [finalView, placedView]
            rfl
        · intro _ final finalRing
          rw [finalRing, counts, placedView]
          rfl
      · rintro _ final ⟨fails, same⟩
        have none : server.runView.placedCount logIdx needs = 0 := by
          show RunView.placedCount server.runView logIdx (_ :: _) = _
          rw [RunView.placedCount, if_pos fails]
        rw [none]
        exact same

/-- A server in front of a run: the buffer of the last call is cleared. -/
def Server.freshRun (server : Server) : RunView :=
  { server.runView with buffered := false }

/-- What of the last `count` entries is placed, up to a failing flush. -/
def Server.placedNeeds
    (server : Server)
    (count : Nat) :
    List Nat :=
  (server.lastNeeds count).take
    (server.freshRun.placedCount (server.firstPersisted count)
      (server.lastNeeds count))

theorem persistLog_ends
    (tiled : Tiles 0 server.io.extents)
    (count : Nat) :
    wp (persistLog count)
      (fun _ final =>
        server.placedNeeds count = server.lastNeeds count ∧
          final.ringView =
            (server.freshRun.placeAll (server.firstPersisted count)
              (server.placedNeeds count)).ring)
      (fun _ final =>
        final.ringView =
          (server.freshRun.placeAll (server.firstPersisted count)
            (server.placedNeeds count)).ring) server := by
  have fresh :
      ∀ buffer : AlignedBuffer,
        buffer.data = [] →
        ({ server with
          ring := { server.ring with runBuf := buffer } } : Server).runView =
            server.freshRun := by
    intro buffer empty
    simp only [Server.runView, Server.freshRun, empty, List.isEmpty_nil,
      Bool.not_true]
    rfl
  simp only [persistLog, modifyRing, wp_bind, wp_get, wp_modify, wp_discard]
  generalize bufferIs : ite (server.ring.runBuf.capacity < _) _ _ = buffer
  have started := fresh buffer (by
    rw [← bufferIs]
    split <;> rfl)
  refine wp_mono (persistEntries_ends _ _ _ tiled) ?_ ?_
  · rintro cursor placed ⟨all, placedView⟩
    rw [started] at all placedView
    have whole : server.placedNeeds count = server.lastNeeds count := by
      rw [Server.placedNeeds]
      exact List.take_of_length_le (Nat.le_of_eq all.symm)
    have placedRing :
        placed.ringView =
          (server.freshRun.placeAll (server.firstPersisted count)
            (server.placedNeeds count)).ring := by
      rw [whole]
      exact congrArg RunView.ring placedView
    refine wp_mono (flushRun_ends _ placed) ?_ ?_
    · rintro _ final ⟨-, flushed⟩
      refine ⟨whole, Eq.trans ?_ placedRing⟩
      exact (congrArg RunView.ring flushed).trans placed.runView.flush_ring
    · rintro _ final ⟨-, same⟩
      exact same.trans placedRing
  · intro _ final placedRing
    rw [started] at placedRing
    exact placedRing

/--
`persist_circular` places the new entries up to the first flush that fails,
and all of them when a later call fails or none.
-/
theorem persistCircular_ends
    (tiled : Tiles 0 server.io.extents)
    {count : Nat}
    (some : 0 < count) :
    wp (persistCircular true count)
      (fun _ final =>
        server.placedNeeds count = server.lastNeeds count ∧
          final.ringView =
            (server.freshRun.placeAll (server.firstPersisted count)
              (server.placedNeeds count)).ring)
      (fun _ final =>
        final.ringView =
          (server.freshRun.placeAll (server.firstPersisted count)
            (server.placedNeeds count)).ring) server := by
  simp only [persistCircular, wp_bind, wp_get, wp_modify,
    Nat.ne_of_gt some, false_and, if_false, true_and, some, if_true]
  refine wp_mono (persistLog_ends tiled count) ?_ fun _ _ same => same
  rintro _ logged ⟨whole, same⟩
  refine wp_mono ((persistSync_besidesFile true).ends logged) ?_ ?_
  · intro _ synced kept
    exact ⟨whole, (same_ringView kept).trans same⟩
  · intro _ synced kept
    exact (same_ringView kept).trans same

end

end NvmeofRaft
