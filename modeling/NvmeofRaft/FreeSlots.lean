import NvmeofRaft.EntryMetas
import NvmeofRaft.RingSpans

namespace NvmeofRaft

/-!
# Free slots of the ring

`can_write_all` tells the free slots of the ring from `tail_slot` and
`head_slot`.  The two agree for a full ring and for one that has not wrapped,
an empty `log_slot_map` admits every batch, and a ring that has wrapped may
wrap again, so that live slots can be overwritten.
-/

/-- The slots of a record. -/
def SlotRecord.span (record : SlotRecord) : Span where
  start := record.start
  length := record.numSlots

/-- The slots of all records are inside the ring and no two overlap. -/
structure RingLog.SlotsApart (ring : RingLog) : Prop where
  inside :
    ∀ logIdx record,
      ring.logSlotMap.lookup logIdx = some record →
      record.start + record.numSlots ≤ ring.ringSlots
  apart :
    ∀ first second early late,
      ring.logSlotMap.lookup first = some early →
      ring.logSlotMap.lookup second = some late →
      first ≠ second →
      early.span.Apart late.span

/-- The record of the oldest entry that has one. -/
def RingLog.oldestRecord? (ring : RingLog) : Option SlotRecord :=
  ring.logSlotMap.keys.min?.bind fun logIdx => ring.logSlotMap.lookup logIdx

/-- The slot counts of the entries of a batch. -/
def slotNeeds (commands : List (List UInt8)) : List Nat :=
  commands.map fun command => slotsForEntry command.length

/-- Every entry takes at least one slot. -/
theorem slotNeeds_pos
    {commands : List (List UInt8)} :
    ∀ needed ∈ slotNeeds commands, 0 < needed := by
  intro needed member
  obtain ⟨command, -, rfl⟩ := List.mem_map.mp member
  exact slotsForEntry_pos _

/-- There is room for the batch behind the tail slot. -/
def RingLog.hasRoom
    (ring : RingLog)
    (commands : List (List UInt8)) :
    Bool :=
  roomBehind ring.ringSlots ring.tailSlot
    (ring.oldestRecord?.map SlotRecord.span) (slotNeeds commands)

/-- The records are those of the indices from `first` up to `upto`. -/
structure RingView.Holds
    (view : RingView)
    (first : Nat)
    (records : List SlotRecord)
    (upto : Nat) : Prop where
  upto : upto = first + records.length
  above : view.gcUpTo < first
  lookup :
    ∀ logIdx,
      view.slots.lookup logIdx =
        if first ≤ logIdx then records[logIdx - first]? else none

/-- The records of spans laid one after the other. -/
def laidRecords
    (size tail : Nat)
    (needs : List Nat) :
    List SlotRecord :=
  (laidSpans size tail needs).map fun span =>
    { start := span.start, numSlots := span.length, state := .using }

theorem laidRecords_spans
    (size tail : Nat)
    (needs : List Nat) :
    (laidRecords size tail needs).map SlotRecord.span =
      laidSpans size tail needs := by
  rw [laidRecords, List.map_map]
  exact List.map_id _

theorem spans_pos
    {records : List SlotRecord}
    (some : ∀ record ∈ records, 0 < record.numSlots) :
    ∀ span ∈ records.map SlotRecord.span, 0 < span.length := by
  intro span member
  obtain ⟨record, held, rfl⟩ := List.mem_map.mp member
  exact some record held

/-- Every record takes slots. -/
theorem laidRecords_pos
    {size : Nat}
    {commands : List (List UInt8)} :
    ∀ {tail record},
      record ∈ laidRecords size tail (slotNeeds commands) →
      0 < record.numSlots := by
  induction commands with
  | nil =>
      intro tail record member
      cases member
  | cons command rest inductionHypothesis =>
      intro tail record member
      rcases List.mem_cons.mp member with same | later
      · rw [same]
        exact slotsForEntry_pos _
      · exact inductionHypothesis later

namespace RingView

variable {view : RingView} {first upto : Nat} {records : List SlotRecord}

/-- On a ring in one extent an entry is placed as a span is laid. -/
theorem nextStart_of_contiguous
    (contiguous : view.extents.length ≤ 1)
    (needed : Nat) :
    view.nextStart needed = laidAt view.ringSlots view.tailSlot needed := by
  rw [nextStart, nextSlot, skipSlot, if_pos contiguous]
  rfl

/-- Placing one entry adds its record behind the others. -/
theorem Holds.place
    (holds : view.Holds first records upto)
    (needed : Nat) :
    (view.place upto needed).Holds first
      (records ++
        [{ start := view.nextStart needed
           numSlots := needed
           state := .using }])
      (upto + 1) := by
  obtain ⟨behind, above, lookup⟩ := holds
  refine ⟨?_, above, fun logIdx => ?_⟩
  · rw [behind, List.length_append, List.length_singleton, Nat.add_assoc]
  · by_cases newest : logIdx = upto
    · subst newest
      rw [RingView.place, AList.lookup_insert, if_pos (by omega), behind,
        Nat.add_sub_cancel_left, List.getElem?_concat_length]
    · rw [RingView.place, AList.lookup_insert_ne newest, lookup]
      by_cases behind' : first ≤ logIdx
      · rw [if_pos behind', if_pos behind']
        rcases Nat.lt_or_ge (logIdx - first) records.length with old | new
        · rw [List.getElem?_append_left old]
        · rw [List.getElem?_eq_none new, List.getElem?_eq_none]
          rw [List.length_append, List.length_singleton]
          omega
      · rw [if_neg behind', if_neg behind']

/-- Placing a batch lays the spans of its entries one after the other. -/
theorem Holds.placeAll
    (needs : List Nat) :
    ∀ {view : RingView} {records : List SlotRecord} {upto : Nat},
      view.Holds first records upto →
      view.extents.length ≤ 1 →
      (view.placeAll upto needs).Holds first
          (records ++ laidRecords view.ringSlots view.tailSlot needs)
          (upto + needs.length) ∧
        (view.placeAll upto needs).tailSlot =
          laidTail view.ringSlots view.tailSlot needs := by
  induction needs with
  | nil =>
      intro view records upto holds contiguous
      rw [laidRecords, laidSpans, List.map_nil, List.append_nil]
      exact ⟨holds, rfl⟩
  | cons needed rest inductionHypothesis =>
      intro view records upto holds contiguous
      have start := nextStart_of_contiguous contiguous needed
      obtain ⟨placed, tail⟩ :=
        inductionHypothesis (holds.place needed) contiguous
      have tailSlot :
          (view.place upto needed).tailSlot =
            laidAt view.ringSlots view.tailSlot needed + needed :=
        congrArg (· + needed) start
      rw [tailSlot] at placed tail
      rw [start, List.append_assoc] at placed
      rw [List.length_cons, Nat.add_comm rest.length, ← Nat.add_assoc]
      exact ⟨placed, tail⟩

/-- Collecting drops the oldest records. -/
theorem Holds.collect
    (holds : view.Holds first records upto)
    {minMatch : Nat}
    (below : minMatch < upto) :
    ∃ count,
      ({ view with
          slots := eraseSlots (minMatch - view.gcUpTo) (view.gcUpTo + 1)
            view.slots
          gcUpTo := minMatch } : RingView).Holds (first + count)
        (records.drop count) upto := by
  obtain ⟨behind, above, lookup⟩ := holds
  refine ⟨minMatch + 1 - first, ?_, ?_, fun logIdx => ?_⟩
  · rw [List.length_drop]
    omega
  · dsimp only
    omega
  · dsimp only
    by_cases erased : view.gcUpTo < logIdx ∧ logIdx ≤ minMatch
    · rw [if_neg (by omega), Option.eq_none_iff_forall_ne_some]
      intro record held
      have outside := (lookup_eraseSlots _ _ _ _ _ held).2
      omega
    · rw [lookup_eraseSlots_outside _ _ _ _ (by omega), lookup,
        List.getElem?_drop]
      by_cases kept : first + (minMatch + 1 - first) ≤ logIdx
      · rw [if_pos (by omega), if_pos kept]
        congr 1
        omega
      · rw [if_neg (by omega), if_neg kept]

end RingView

section

variable {server : Server} {first upto : Nat} {records : List SlotRecord}
variable (holds : server.ringView.Holds first records upto)

include holds

/-- The record of an index, by its place behind the first one. -/
theorem RingView.Holds.lookup_eq
    (offset : Nat) :
    server.ring.logSlotMap.lookup (first + offset) = records[offset]? := by
  have held := holds.lookup (first + offset)
  rw [if_pos (Nat.le_add_right _ _), Nat.add_sub_cancel_left] at held
  exact held

theorem RingView.Holds.exists_offset
    {logIdx : Nat}
    {record : SlotRecord}
    (held : server.ring.logSlotMap.lookup logIdx = some record) :
    ∃ offset, logIdx = first + offset ∧ records[offset]? = some record := by
  have held' : server.ringView.slots.lookup logIdx = some record := held
  rw [holds.lookup] at held'
  split at held'
  · exact ⟨logIdx - first, by omega, held'⟩
  · cases held'

/-- The records are those of the indices from the first one on. -/
theorem RingView.Holds.mem_keys
    (logIdx : Nat) :
    logIdx ∈ server.ring.logSlotMap.keys ↔
      first ≤ logIdx ∧ logIdx < upto := by
  rw [← AList.mem_keys, ← AList.lookup_isSome]
  have held := holds.lookup logIdx
  have behind := holds.upto
  have same : server.ringView.slots = server.ring.logSlotMap := rfl
  rw [← same, held]
  split
  · rw [Option.isSome_iff_ne_none, Ne, List.getElem?_eq_none_iff]
    omega
  · simp only [Option.isSome_none, Bool.false_eq_true, false_iff]
    omega

/-- The oldest record is the first one. -/
theorem RingView.Holds.oldestRecord?_eq :
    server.ring.oldestRecord? = records.head? := by
  unfold RingLog.oldestRecord?
  have behind := holds.upto
  cases records with
  | nil =>
      have none : server.ring.logSlotMap.keys = [] := by
        refine List.eq_nil_iff_forall_not_mem.mpr fun logIdx member => ?_
        have inside := (holds.mem_keys logIdx).mp member
        rw [List.length_nil] at behind
        omega
      rw [none]
      rfl
  | cons oldest rest =>
      have lowest : server.ring.logSlotMap.keys.min? = some first := by
        rw [List.length_cons] at behind
        refine List.min?_eq_some_iff.mpr ⟨?_, fun logIdx member => ?_⟩
        · exact (holds.mem_keys first).mpr ⟨le_refl _, by omega⟩
        · exact ((holds.mem_keys logIdx).mp member).1
      rw [lowest]
      exact holds.lookup_eq 0

/-- Disjoint slots are disjoint spans of the records. -/
theorem RingView.Holds.slotsApart_iff :
    server.ring.SlotsApart ↔
      (∀ span ∈ records.map SlotRecord.span,
          span.stop ≤ server.ring.ringSlots) ∧
        (records.map SlotRecord.span).Pairwise Span.Apart := by
  constructor
  · rintro ⟨inside, apart⟩
    constructor
    · intro span member
      obtain ⟨record, held, rfl⟩ := List.mem_map.mp member
      obtain ⟨offset, found⟩ := List.mem_iff_getElem?.mp held
      exact inside _ record ((holds.lookup_eq offset).trans found)
    · rw [List.pairwise_map, List.pairwise_iff_getElem]
      intro early late early_lt late_lt order
      refine apart (first + early) (first + late) _ _
        ((holds.lookup_eq early).trans (List.getElem?_eq_getElem early_lt))
        ((holds.lookup_eq late).trans (List.getElem?_eq_getElem late_lt)) ?_
      omega
  · rintro ⟨inside, apart⟩
    rw [List.pairwise_map, List.pairwise_iff_getElem] at apart
    constructor
    · intro logIdx record held
      obtain ⟨offset, -, found⟩ := holds.exists_offset held
      exact inside record.span
        (List.mem_map_of_mem (List.mem_of_getElem? found))
    · intro early late earlyRecord lateRecord earlyHeld lateHeld different
      obtain ⟨low, rfl, lowFound⟩ := holds.exists_offset earlyHeld
      obtain ⟨high, rfl, highFound⟩ := holds.exists_offset lateHeld
      obtain ⟨low_lt, rfl⟩ := List.getElem?_eq_some_iff.mp lowFound
      obtain ⟨high_lt, rfl⟩ := List.getElem?_eq_some_iff.mp highFound
      rcases Nat.lt_or_gt_of_ne (show low ≠ high by omega) with less | more
      · exact apart low high low_lt high_lt less
      · exact (apart high low high_lt low_lt more).symm

end

/-- The slot records of a server are laid around its ring. -/
structure Server.LaysOut
    (server : Server)
    (first : Nat)
    (records : List SlotRecord) : Prop where
  holds :
    server.ringView.Holds first records server.ring.tailLogIndex
  some : ∀ record ∈ records, 0 < record.numSlots
  contiguous : server.ringView.extents.length ≤ 1
  laid :
    ∃ limit wrapped,
      limit ≤ server.ring.ringSlots ∧
        Laid server.ring.ringSlots limit server.ring.tailSlot wrapped
          (records.map SlotRecord.span)

section

variable {server : Server} {first : Nat} {records : List SlotRecord}

/-- Records that are laid out have separate slots. -/
theorem Server.LaysOut.slotsApart
    (laysOut : server.LaysOut first records) :
    server.ring.SlotsApart := by
  obtain ⟨limit, wrapped, bounded, laid⟩ := laysOut.laid
  exact laysOut.holds.slotsApart_iff.mpr
    ⟨laid.inRing bounded, laid.apart⟩

/-- A change that keeps the ring keeps the layout of its records. -/
theorem Server.LaysOut.of_ringView
    {after : Server}
    (laysOut : server.LaysOut first records)
    (same : after.ringView = server.ringView) :
    after.LaysOut first records := by
  obtain ⟨holds, some, contiguous, laid⟩ := laysOut
  have tail : after.ring.tailLogIndex = server.ring.tailLogIndex :=
    congrArg RingView.tail same
  have ringSlots : after.ring.ringSlots = server.ring.ringSlots :=
    congrArg RingView.ringSlots same
  have tailSlot : after.ring.tailSlot = server.ring.tailSlot :=
    congrArg RingView.tailSlot same
  refine ⟨?_, some, ?_, ?_⟩
  · rw [same, tail]
    exact holds
  · rw [same]
    exact contiguous
  · rw [ringSlots, tailSlot]
    exact laid

/-- Garbage collection gives the oldest slots up. -/
theorem Server.LaysOut.collect
    {after : Server}
    (laysOut : server.LaysOut first records)
    (sentinel : 0 < server.ring.tailLogIndex)
    (cut :
      after.ringView =
        { server.ringView with
          slots := eraseSlots (server.minMatch - server.ring.gcUpTo)
            (server.ring.gcUpTo + 1) server.ring.logSlotMap
          gcUpTo := server.minMatch }) :
    ∃ first' records', after.LaysOut first' records' := by
  obtain ⟨holds, some, contiguous, limit, wrapped, bounded, laid⟩ := laysOut
  have below : server.minMatch < server.ring.tailLogIndex := by
    have bound : server.minMatch ≤ server.ring.tailLogIndex - 1 :=
      minMatch_le server
    omega
  obtain ⟨count, fewer⟩ := holds.collect below
  obtain ⟨limit', wrapped', bounded', laid'⟩ := laid.drop bounded count
  have tail : after.ring.tailLogIndex = server.ring.tailLogIndex :=
    congrArg RingView.tail cut
  have ringSlots : after.ring.ringSlots = server.ring.ringSlots :=
    congrArg RingView.ringSlots cut
  have tailSlot : after.ring.tailSlot = server.ring.tailSlot :=
    congrArg RingView.tailSlot cut
  refine ⟨first + count, records.drop count, ?_, ?_, ?_, limit', wrapped',
    ?_⟩
  · rw [cut, tail]
    exact fewer
  · exact fun record member => some record (List.mem_of_mem_drop member)
  · rw [cut]
    exact contiguous
  · rw [ringSlots, tailSlot, List.map_drop]
    exact ⟨bounded', laid'⟩

section

variable {after : Server} {commands : List (List UInt8)}
variable (laysOut : server.LaysOut first records)
variable
  (placed :
    after.ringView =
      (server.ringView.withTail
        (server.ring.tailLogIndex + commands.length)).placeAll
          server.ring.tailLogIndex (slotNeeds commands))

include laysOut placed

/-- The slot records after the commands have been placed. -/
theorem Server.LaysOut.grown :
    after.ringView.Holds first
        (records ++
          laidRecords server.ring.ringSlots server.ring.tailSlot
            (slotNeeds commands))
        after.ring.tailLogIndex ∧
      after.ring.ringSlots = server.ring.ringSlots ∧
        after.ring.tailSlot =
          laidTail server.ring.ringSlots server.ring.tailSlot
            (slotNeeds commands) := by
  have withTail :
      (server.ringView.withTail
        (server.ring.tailLogIndex + commands.length)).Holds first records
          server.ring.tailLogIndex :=
    ⟨laysOut.holds.upto, laysOut.holds.above, laysOut.holds.lookup⟩
  obtain ⟨holds, tail⟩ :=
    withTail.placeAll (slotNeeds commands) laysOut.contiguous
  have tailIndex :
      after.ring.tailLogIndex =
        server.ring.tailLogIndex + commands.length := by
    have same : after.ringView.tail = _ := congrArg RingView.tail placed
    rw [RingView.placeAll_tail] at same
    exact same
  have ringSlots : after.ring.ringSlots = server.ring.ringSlots := by
    have same : after.ringView.ringSlots = _ :=
      congrArg RingView.ringSlots placed
    rw [RingView.placeAll_ringSlots] at same
    exact same
  have tailSlot : after.ring.tailSlot = _ :=
    congrArg RingView.tailSlot placed
  rw [← placed, slotNeeds, List.length_map, ← tailIndex] at holds
  exact ⟨holds, ringSlots, tailSlot.trans tail⟩

/-- A batch for which there is room keeps the slots apart. -/
theorem Server.LaysOut.place
    (room : server.ring.hasRoom commands = true) :
    ∃ records', after.LaysOut first records' := by
  obtain ⟨holds, ringSlots, tailSlot⟩ := laysOut.grown placed
  obtain ⟨held, some, contiguous, limit, wrapped, bounded, laid⟩ := laysOut
  refine ⟨_, holds, ?_, ?_, ?_⟩
  · intro record member
    rcases List.mem_append.mp member with old | new
    · exact some record old
    · exact laidRecords_pos new
  · rw [placed, RingView.placeAll_extents]
    exact contiguous
  · rw [ringSlots, tailSlot, List.map_append, laidRecords_spans]
    rw [RingLog.hasRoom, held.oldestRecord?_eq, ← List.head?_map]
      at room
    exact laid.layBehind bounded (spans_pos some) room

/-- A batch for which there is no room leaves the ring or overlaps. -/
theorem Server.LaysOut.overwrite
    (tight : server.ring.hasRoom commands = false) :
    ¬ after.ring.SlotsApart := by
  obtain ⟨holds, ringSlots, tailSlot⟩ := laysOut.grown placed
  obtain ⟨held, some, contiguous, limit, wrapped, bounded, laid⟩ := laysOut
  rw [holds.slotsApart_iff, ringSlots, List.map_append, laidRecords_spans]
  rw [RingLog.hasRoom, held.oldestRecord?_eq, ← List.head?_map]
    at tight
  exact laid.crowdsBehind bounded (spans_pos some) slotNeeds_pos tight

end

end

/-- What `can_write_all` admits has room. -/
def admitsWithRoom
    (proc : Process)
    (input : Input) :
    Bool :=
  match input.act with
  | .apply _ commands =>
      !canWriteAll proc.server.ring commands ||
        proc.server.ring.hasRoom commands
  | _ => true

/-- A leader on a contiguous ring whose slots are apart. -/
structure Process.Laying
    (proc : Process)
    (extents : List Extent) : Prop where
  chaining : proc.Chaining extents
  laysOut : ∃ first records, proc.server.LaysOut first records

section

variable {proc next : Process} {input : Input} {extents : List Extent}
variable (tiled : Tiles 0 extents)
variable (laying : proc.Laying extents)
variable (inside : soundLeadership proc input = true)
variable (advanced : proc.advance input = some next)

include tiled laying inside advanced

/-- A step in which no batch is admitted without room. -/
theorem Process.Laying.goesOn
    (room : admitsWithRoom proc input = true) :
    next.Laying extents := by
  obtain ⟨result, stepped, rfl⟩ := Option.map_eq_some_iff.mp advanced
  obtain ⟨chaining, first, records, laysOut⟩ := laying
  refine ⟨chaining.goesOn tiled inside stepped, ?_⟩
  cases chaining.leadershipChange tiled inside stepped with
  | kept same =>
      exact ⟨first, records, laysOut.of_ringView same⟩
  | @admitted _ commands act admitted placed =>
      rw [admitsWithRoom, act] at room
      have room : proc.server.ring.hasRoom commands = true := by
        simpa [admitted] using room
      exact ⟨first, laysOut.place placed room⟩
  | collected _ cut =>
      have tail : 0 < proc.server.ring.tailLogIndex :=
        Nat.zero_lt_of_lt chaining.chain.below
      exact laysOut.collect tail cut

/-- A step in which a batch is admitted without room. -/
theorem Process.Laying.overwrites
    (tight : admitsWithRoom proc input = false) :
    ¬ next.server.ring.SlotsApart := by
  obtain ⟨result, stepped, rfl⟩ := Option.map_eq_some_iff.mp advanced
  obtain ⟨chaining, first, records, laysOut⟩ := laying
  unfold admitsWithRoom at tight
  cases act : input.act with
  | apply sink commands =>
      rw [act] at tight stepped
      obtain ⟨admitted, full⟩ :
          canWriteAll proc.server.ring commands = true ∧
            proc.server.ring.hasRoom commands = false := by
        simpa using tight
      have some : commands ≠ [] := by
        rintro rfl
        unfold RingLog.hasRoom slotNeeds at full
        cases oldest : proc.server.ring.oldestRecord? with
        | none =>
            rw [oldest] at full
            cases full
        | some record =>
            rw [oldest] at full
            cases full
      have running :=
        Process.running_of_step stepped fun _ _ => Act.noConfusion
      have writable := chaining.writable tiled inside
      have sentinel : 0 < proc.server.raft.log.length := by
        have held := List.length_pos_of_ne_nil
          (chaining.wellformed.sentinel running)
        simpa [Server.view] using held
      simp only [Process.step, running, Bool.false_eq_true, if_false,
        Option.some.injEq, Process.stepApply] at stepped
      rw [← stepped]
      refine execOrHalt_wp
        (fun result : Process × Outputs =>
          ¬ result.1.server.ring.SlotsApart)
        (applyCommands_places writable sentinel sink some admitted) ?_
        fun _ _ never => never.elim
      intro outcome server placed
      have overlaps : ¬ server.ring.SlotsApart :=
        laysOut.overwrite placed full
      dsimp only
      split <;> exact overlaps
  | _ =>
      rw [act] at tight
      cases tight

end

/-- The slots are apart in every state of a run. -/
def SlotsApartAlong
    (leader : Process)
    (inputs : List Input) : Prop :=
  ∀ earlier proc,
    earlier <+: inputs →
    runWhile soundLeadership Process.advance leader earlier = some proc →
    proc.server.ring.SlotsApart

/-- No step of a run admits a batch without room. -/
def RoomAlong
    (leader : Process)
    (inputs : List Input) : Prop :=
  ∀ earlier input proc,
    earlier ++ [input] <+: inputs →
    runWhile soundLeadership Process.advance leader earlier = some proc →
    admitsWithRoom proc input = true

section

variable {leader next : Process} {input : Input} {inputs : List Input}
variable (inside : soundLeadership leader input = true)
variable (advanced : leader.advance input = some next)

include inside advanced

theorem slotsApartAlong_cons :
    SlotsApartAlong leader (input :: inputs) ↔
      leader.server.ring.SlotsApart ∧ SlotsApartAlong next inputs := by
  have goes := runWhile_of_step inside advanced
  constructor
  · intro along
    refine ⟨along [] leader List.nil_prefix rfl, ?_⟩
    intro earlier proc shorter reached
    exact along (input :: earlier) proc
      (List.cons_prefix_cons.mpr ⟨rfl, shorter⟩) ((goes earlier).trans reached)
  · rintro ⟨here, later⟩ earlier proc shorter reached
    cases earlier with
    | nil =>
        rw [runWhile, Option.some.injEq] at reached
        exact reached ▸ here
    | cons first earlier =>
        obtain ⟨rfl, rest⟩ := List.cons_prefix_cons.mp shorter
        exact later earlier proc rest ((goes earlier).symm.trans reached)

theorem roomAlong_cons :
    RoomAlong leader (input :: inputs) ↔
      admitsWithRoom leader input = true ∧ RoomAlong next inputs := by
  have goes := runWhile_of_step inside advanced
  constructor
  · intro along
    constructor
    · exact along [] input leader
        (List.cons_prefix_cons.mpr ⟨rfl, List.nil_prefix⟩) rfl
    · intro earlier later proc shorter reached
      exact along (input :: earlier) later proc
        (List.cons_prefix_cons.mpr ⟨rfl, shorter⟩)
        ((goes earlier).trans reached)
  · rintro ⟨here, later⟩ earlier last proc shorter reached
    cases earlier with
    | nil =>
        obtain ⟨rfl, -⟩ := List.cons_prefix_cons.mp shorter
        rw [runWhile, Option.some.injEq] at reached
        exact reached ▸ here
    | cons first earlier =>
        obtain ⟨rfl, rest⟩ := List.cons_prefix_cons.mp shorter
        exact later earlier last proc rest
          ((goes earlier).symm.trans reached)

end

/-- A run that checks the room of every batch. -/
theorem roomAlong_of_run :
    ∀ {inputs : List Input} {leader final : Process},
      runWhile
          (fun proc input =>
            soundLeadership proc input && admitsWithRoom proc input)
          Process.advance leader inputs = some final →
      RoomAlong leader inputs := by
  intro inputs
  induction inputs with
  | nil =>
      intro leader final run earlier input proc shorter
      have length := shorter.length_le
      simp at length
  | cons input inputs inductionHypothesis =>
      intro leader final run
      obtain ⟨next, allowed, advanced, rest⟩ := runWhile_cons run
      obtain ⟨inside, room⟩ := Bool.and_eq_true_iff.mp allowed
      exact (roomAlong_cons inside advanced).mpr
        ⟨room, inductionHypothesis rest⟩

/-- The records of a leader have separate slots. -/
theorem Process.Laying.slotsApart
    {proc : Process}
    {extents : List Extent}
    (laying : proc.Laying extents) :
    proc.server.ring.SlotsApart := by
  obtain ⟨_, _, _, laysOut⟩ := laying
  exact laysOut.slotsApart

/-- Over a run the slots stay apart exactly when every batch has room. -/
theorem Process.Laying.run_iff
    {extents : List Extent}
    (tiled : Tiles 0 extents) :
    ∀ {inputs leader final},
      leader.Laying extents →
      runWhile soundLeadership Process.advance leader inputs = some final →
      (SlotsApartAlong leader inputs ↔ RoomAlong leader inputs) := by
  intro inputs
  induction inputs with
  | nil =>
      intro leader final laying run
      constructor
      · intro _ earlier input proc shorter
        have length := shorter.length_le
        simp at length
      · intro _ earlier proc shorter reached
        rw [List.prefix_nil.mp shorter, runWhile, Option.some.injEq]
          at reached
        rw [← reached]
        exact laying.slotsApart
  | cons input inputs inductionHypothesis =>
      intro leader final laying run
      obtain ⟨next, inside, advanced, rest⟩ := runWhile_cons run
      rw [slotsApartAlong_cons inside advanced,
        roomAlong_cons inside advanced]
      cases room : admitsWithRoom leader input with
      | true =>
          have onward :=
            inductionHypothesis (laying.goesOn tiled inside advanced room)
              rest
          exact ⟨fun apart => ⟨rfl, onward.mp apart.2⟩,
            fun room => ⟨laying.slotsApart, onward.mpr room.2⟩⟩
      | false =>
          have overlaps := laying.overwrites tiled inside advanced room
          constructor
          · rintro ⟨-, apart⟩
            exact absurd (apart [] next List.nil_prefix rfl) overlaps
          · rintro ⟨never, -⟩
            cases never

/-- The winner of an election was running. -/
theorem running_of_wins
    {candidate leader : Process}
    {election : Input}
    (wins : candidate.node.wins election.act = true)
    (elected : candidate.advance election = some leader) :
    candidate.halted = false := by
  obtain ⟨result, stepped, rfl⟩ := Option.map_eq_some_iff.mp elected
  refine Process.running_of_step stepped fun kernel cacheLost restarts => ?_
  rw [restarts] at wins
  cases wins

/-- A leadership that begins without slot records begins with slots apart. -/
theorem Process.Laying.of_election
    {candidate leader : Process}
    {election : Input}
    (started : candidate.Started)
    (wins : candidate.node.wins election.act = true)
    (succeed : election.outcomes.succeed = true)
    (elected : candidate.advance election = some leader)
    (contiguous : candidate.server.layout.Contiguous)
    (slots : 0 < candidate.server.ring.ringSlots)
    (empty : candidate.server.ring.logSlotMap.entries = []) :
    leader.Laying candidate.server.io.extents := by
  have tiled : Tiles 0 candidate.server.io.extents := contiguous.tiles
  have chaining := Process.Chaining.of_election started wins succeed elected
    tiled (markedView_chained empty _)
  have tail := started.tail (running_of_wins wins elected)
  obtain ⟨-, placed, -⟩ :=
    Process.elected_places started wins succeed elected tiled
  have extents : candidate.server.io.extents.length ≤ 1 := by
    obtain ⟨physical, length, same, -⟩ := contiguous
    exact Nat.le_of_eq (congrArg List.length same)
  have nothing :
      (candidate.server.markedView.withTail
        (candidate.server.ring.tailLogIndex + 1)).Holds
          candidate.server.ring.tailLogIndex []
          candidate.server.ring.tailLogIndex := by
    refine ⟨rfl, tail, fun logIdx => ?_⟩
    have none :
        candidate.server.ring.logSlotMap.markUsing.lookup logIdx = none := by
      rw [lookup_markUsing, AList.lookup, empty]
      rfl
    exact none.trans (ite_self _).symm
  obtain ⟨holds, tailSlot⟩ := nothing.placeAll [slotsForEntry 0] extents
  rw [← placed, List.nil_append] at holds
  rw [← placed] at tailSlot
  have ringSlots :
      leader.server.ring.ringSlots = candidate.server.ring.ringSlots := by
    have same := congrArg RingView.ringSlots placed
    rw [RingView.placeAll_ringSlots] at same
    exact same
  have tailIndex :
      leader.server.ring.tailLogIndex =
        candidate.server.ring.tailLogIndex + 1 := by
    have same := congrArg RingView.tail placed
    rw [RingView.placeAll_tail] at same
    exact same
  have one : slotsForEntry 0 = 1 := rfl
  have inRing :
      laidAt candidate.server.ring.ringSlots candidate.server.ring.tailSlot
          (slotsForEntry 0) + slotsForEntry 0 ≤
        candidate.server.ring.ringSlots := by
    unfold laidAt
    split <;> omega
  have grows :
      ∀ record ∈ laidRecords candidate.server.ring.ringSlots
        candidate.server.ring.tailSlot (slotNeeds [[]]),
        0 < record.numSlots :=
    fun _ member => laidRecords_pos member
  refine ⟨chaining, candidate.server.ring.tailLogIndex, _, tailIndex ▸ holds,
    grows, chaining.chain.extents ▸ extents,
    laidAt candidate.server.ring.ringSlots candidate.server.ring.tailSlot
      (slotsForEntry 0), false, ?_⟩
  have ends :
      leader.server.ring.tailSlot =
        laidTail candidate.server.ring.ringSlots
          candidate.server.ring.tailSlot [slotsForEntry 0] :=
    tailSlot
  rw [ends, ringSlots, laidRecords_spans]
  exact ⟨(Nat.le_add_right _ _).trans inRing, Laid.single inRing⟩

/-- No step changes the size of the ring. -/
theorem run_ringSlots
    {n : Nat}
    {members : Membership n}
    {settings : Fin n → Settings}
    {node : Fin n}
    {inputs : List Input}
    {final : Process}
    (run : (members.boot settings node).Reaches inputs final) :
    0 < final.server.ring.ringSlots := by
  have same :
      final.server.configuration =
        (members.boot settings node).server.configuration := by
    refine runWhile_invariant
      (fun proc : Process =>
        proc.server.configuration =
          (members.boot settings node).server.configuration)
      ?_ rfl run
    intro proc input next same _ advanced
    obtain ⟨result, stepped, rfl⟩ := Option.map_eq_some_iff.mp advanced
    exact (Process.step_configuration stepped).trans same
  have boots := startUp_configuration
    ({ server := members.server settings node } : Process) {}
    { fiemap := some (settings node).extents }
  have slots := congrArg Configuration.ringSlots (same.trans boots)
  have size : final.server.ring.ringSlots = _ := slots
  rw [size]
  simp only [Server.configuration, Membership.server, RingLog.configure,
    slotsPerPage, pageSize, sectorSize]
  split <;> omega

/--
No live slot is overwritten: over a leadership that begins without slot
records on a contiguous ring and whose I/O calls succeed, the slots of all
records are inside the ring and disjoint in every state exactly when
`can_write_all` admits no batch for which there is no room.
-/
theorem slots_apart_iff
    {n : Nat}
    {members : Membership n}
    {settings : Fin n → Settings}
    {node : Fin n}
    {before inputs : List Input}
    {candidate leader final : Process}
    {election : Input}
    (campaign : (members.boot settings node).Reaches before candidate)
    (wins : candidate.node.wins election.act = true)
    (elected : candidate.advance election = some leader)
    (written : election.outcomes.succeed = true)
    (contiguous : candidate.server.layout.Contiguous)
    (empty : candidate.server.ring.logSlotMap.entries = [])
    (run :
      runWhile soundLeadership Process.advance leader inputs =
        some final) :
    SlotsApartAlong leader inputs ↔ RoomAlong leader inputs := by
  have started := run_started (boot_started members settings node) campaign
  have laying : leader.Laying candidate.server.io.extents :=
    Process.Laying.of_election started wins written elected contiguous
      (run_ringSlots campaign) empty
  exact laying.run_iff contiguous.tiles run

/-- Both followers have the no-op entry and its slot is given up. -/
def noOpCollected : List Input :=
  [{ act := mainAct false }, { act := mainAct true },
   { act := mainAct false }, { act := .appendSend 0 },
   { act := .appendSend 1 },
   { act := .appendReply 0 { term := 1, success := true } },
   { act := .appendReply 0 { term := 1, success := true } },
   { act := .slotGc }]

/-- Fifteen entries fill the ring of fifteen slots. -/
def fillingBatch : List Input :=
  noOpCollected ++ [{ act := .apply 7 (List.replicate 15 []) }]

/-- Sixteen entries do not fit. -/
def oversizedBatch : List Input :=
  noOpCollected ++ [{ act := .apply 7 (List.replicate 16 []) }]

/-- A batch that fills the ring keeps its slots apart. -/
theorem filling_batch_apart :
    ∃ candidate leader,
      firstNode.Reaches firstCampaign candidate ∧
        candidate.advance { act := mainAct false } = some leader ∧
          SlotsApartAlong leader fillingBatch := by
  obtain ⟨candidate, campaign, passes⟩ :
      ∃ candidate,
        runWhile (fun _ _ => true) Process.advance firstNode
            firstCampaign = some candidate ∧
          (candidate.node.wins (mainAct false) &&
            (decide (candidate.server.ring.logSlotMap.entries.length = 0 ∧
                candidate.server.ring.ringSlots = 15 ∧
                candidate.server.io.extents = smallRing.extents) &&
              (candidate.advance { act := mainAct false }).any fun leader =>
                (runWhile soundLeadership Process.advance leader
                    fillingBatch).isSome &&
                  (runWhile
                    (fun proc input =>
                      soundLeadership proc input &&
                        admitsWithRoom proc input)
                    Process.advance leader fillingBatch).isSome)) = true :=
    runWhile_exists (by decide +kernel)
  obtain ⟨wins, passes⟩ := Bool.and_eq_true_iff.mp passes
  obtain ⟨begins, passes⟩ := Bool.and_eq_true_iff.mp passes
  obtain ⟨none, ringSlots, extents⟩ := of_decide_eq_true begins
  obtain ⟨leader, elected, passes⟩ := (Option.any_eq_true _ _).mp passes
  obtain ⟨runs, fits⟩ := Bool.and_eq_true_iff.mp passes
  obtain ⟨final, run⟩ := Option.isSome_iff_exists.mp runs
  obtain ⟨same, checked⟩ := Option.isSome_iff_exists.mp fits
  have contiguous : candidate.server.layout.Contiguous :=
    smallRing_contiguous (congrArg₂ RingLayout.mk ringSlots extents)
  exact ⟨candidate, leader, campaign, elected,
    (slots_apart_iff campaign wins elected rfl contiguous
      (List.eq_nil_of_length_eq_zero none) run).mpr
        (roomAlong_of_run checked)⟩

/-- Every leadership of a node on a contiguous ring keeps its slots apart. -/
def KeepsSlotsApart (start : Process) : Prop :=
  ∀ before candidate election leader inputs final,
    start.Reaches before candidate →
    candidate.node.wins election.act = true →
    candidate.advance election = some leader →
    election.outcomes.succeed = true →
    candidate.server.layout.Contiguous →
    candidate.server.ring.logSlotMap.entries = [] →
    runWhile soundLeadership Process.advance leader inputs = some final →
    SlotsApartAlong leader inputs

/-- The last entry of a batch overwrites the first one. -/
theorem live_slot_overwritten :
    ¬ KeepsSlotsApart firstNode := by
  intro keeps
  obtain ⟨candidate, campaign, passes⟩ :
      ∃ candidate,
        runWhile (fun _ _ => true) Process.advance firstNode
            firstCampaign = some candidate ∧
          (candidate.node.wins (mainAct false) &&
            (decide (candidate.server.ring.logSlotMap.entries.length = 0 ∧
                candidate.server.ring.ringSlots = 15 ∧
                candidate.server.io.extents = smallRing.extents) &&
              (candidate.advance { act := mainAct false }).any fun leader =>
                (runWhile soundLeadership Process.advance leader
                  oversizedBatch).any fun final =>
                    decide
                      ((final.server.ring.logSlotMap.lookup 2).map
                          SlotRecord.span = some ⟨1, 1⟩ ∧
                        (final.server.ring.logSlotMap.lookup 17).map
                          SlotRecord.span = some ⟨1, 1⟩))) = true :=
    runWhile_exists (by decide +kernel)
  obtain ⟨wins, passes⟩ := Bool.and_eq_true_iff.mp passes
  obtain ⟨begins, passes⟩ := Bool.and_eq_true_iff.mp passes
  obtain ⟨none, ringSlots, extents⟩ := of_decide_eq_true begins
  obtain ⟨leader, elected, passes⟩ := (Option.any_eq_true _ _).mp passes
  obtain ⟨final, run, passes⟩ := (Option.any_eq_true _ _).mp passes
  obtain ⟨second, last⟩ := of_decide_eq_true passes
  obtain ⟨early, earlyHeld, earlySpan⟩ := Option.map_eq_some_iff.mp second
  obtain ⟨late, lateHeld, lateSpan⟩ := Option.map_eq_some_iff.mp last
  have contiguous : candidate.server.layout.Contiguous :=
    smallRing_contiguous (congrArg₂ RingLayout.mk ringSlots extents)
  have apart :=
    (keeps _ _ _ _ _ _ campaign wins elected rfl contiguous
      (List.eq_nil_of_length_eq_zero none) run _ _ (List.prefix_refl _)
      run).apart 2 17 early late earlyHeld lateHeld (by decide)
  rw [earlySpan, lateSpan] at apart
  exact absurd apart (by decide)

end NvmeofRaft
