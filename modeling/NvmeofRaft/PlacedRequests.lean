import NvmeofRaft.LeaderImage

namespace NvmeofRaft

/-!
# Requests for placed entries

A request whose metadata give the recorded slot counts lets a follower find
every entry at the slot where the leader has placed it.
-/

/--
The metadata of a placed entry.  Of an entry whose command the leader had
released they give no length.
-/
structure EntryMeta.Describes
    (entryMeta : EntryMeta)
    (entry : Entry) : Prop where
  term : entryMeta.term = entry.term
  cmdLen :
    entryMeta.cmdLen = entry.command.length ∨ entryMeta.cmdLen = 0

/-- The request describes entries that the leader has placed. -/
structure AppendEntriesRequest.DescribesPlaced
    (req : AppendEntriesRequest)
    (leader : Nat)
    (layout : RingLayout)
    (placed : List (Entry × Nat)) : Prop where
  data : 0 < req.numEntries
  device : req.leaderDevIndex = leader
  counted : req.entryMetas.length = req.numEntries
  within : req.prevLogIndex + req.numEntries ≤ placed.length
  source :
    physicalAt layout.extents (slotOffset req.startSlot) =
      some req.leaderPbaSrc
  inRing : req.startSlot + req.logBlockLength ≤ layout.ringSlots
  fits : req.startSlot + slotsOfMetas req.entryMetas ≤ layout.ringSlots
  slots :
    ∀ offset entry start,
      offset < req.numEntries →
      placed[req.prevLogIndex + offset]? = some (entry, start) →
      start = req.startSlot + slotsOfMetas (req.entryMetas.take offset) ∧
        start + entry.needed ≤ req.startSlot + req.logBlockLength
  metas :
    ∀ offset entry start,
      offset < req.numEntries →
      placed[req.prevLogIndex + offset]? = some (entry, start) →
      ∃ entryMeta,
        req.entryMetas[offset]? = some entryMeta ∧ entryMeta.Describes entry

/-- A request without entries, or one that describes placed entries. -/
def AppendEntriesRequest.Sound
    (req : AppendEntriesRequest)
    (leader : Nat)
    (layout : RingLayout)
    (placed : List (Entry × Nat)) : Prop :=
  0 < req.numEntries → req.DescribesPlaced leader layout placed

section

variable {req : AppendEntriesRequest} {leader : Nat} {layout : RingLayout}
variable {placed : List (Entry × Nat)}

theorem AppendEntriesRequest.DescribesPlaced.append
    (describes : req.DescribesPlaced leader layout placed)
    (added : List (Entry × Nat)) :
    req.DescribesPlaced leader layout (placed ++ added) := by
  obtain ⟨data, device, counted, within, source, inRing, fits, slots, metas⟩ :=
    describes
  refine ⟨data, device, counted, ?_, source, inRing, fits, ?_, ?_⟩
  · rw [List.length_append]
    omega
  · intro offset entry start inside found
    rw [List.getElem?_append_left (by omega)] at found
    exact slots offset entry start inside found
  · intro offset entry start inside found
    rw [List.getElem?_append_left (by omega)] at found
    exact metas offset entry start inside found

theorem AppendEntriesRequest.Sound.append
    (sound : req.Sound leader layout placed)
    (added : List (Entry × Nat)) :
    req.Sound leader layout (placed ++ added) :=
  fun data => (sound data).append added

end

/--
The metadata of a call give the slot counts on record.  The count of the last
entry places no other one.
-/
def Server.sizesMatch
    (server : Server)
    (call : AppendCall) :
    Bool :=
  (List.range (call.lenEntries - 1)).all fun offset =>
    decide (slotsForEntry (server.logAt (call.next + offset)).toMeta.cmdLen =
      server.slotsForLogIndex (call.next + offset))

/-- The request that Lock B builds for a member has matching metadata. -/
def Server.sendsSizes
    (server : Server)
    (fi : Nat) :
    Bool :=
  (server.builtCall? fi).all fun call => server.sizesMatch call

theorem slotsForEntry_mono
    {first second : Nat}
    (shorter : first ≤ second) :
    slotsForEntry first ≤ slotsForEntry second :=
  Nat.div_le_div_right (by omega)

/-- The metadata never give more slots than the command takes. -/
theorem Entry.Recalls.toMeta_le
    {entry : Entry}
    {command : List UInt8}
    {applied : Prop}
    (recalls : entry.Recalls command applied)
    (slot : entry.ringSlot = 0) :
    slotsForEntry entry.toMeta.cmdLen ≤ slotsForEntry command.length := by
  have length : entry.toMeta.cmdLen = entry.command.length :=
    if_neg fun deferred => deferred.2 slot
  rw [length]
  refine slotsForEntry_mono ?_
  cases recalls with
  | intact same =>
      rw [same]
  | released _ empty _ =>
      rw [empty]
      exact Nat.zero_le _

/-- The metadata give the length of the command, or none once it is released. -/
theorem Entry.Recalls.toMeta_length_or
    {entry : Entry}
    {command : List UInt8}
    {applied : Prop}
    (recalls : entry.Recalls command applied)
    (slot : entry.ringSlot = 0) :
    entry.toMeta.cmdLen = command.length ∨ entry.toMeta.cmdLen = 0 := by
  have length : entry.toMeta.cmdLen = entry.command.length :=
    if_neg fun deferred => deferred.2 slot
  rw [length]
  cases recalls with
  | intact same =>
      exact Or.inl (congrArg List.length same)
  | released _ empty _ =>
      exact Or.inr (congrArg List.length empty)

section

variable {proc : Process} {layout : RingLayout}
variable {placed : List (Entry × Nat)} {call : AppendCall}

/-- What a record of the leader says about the placed entry. -/
theorem Process.Records.placedAt
    (records : proc.Records layout placed)
    {logIdx : Nat}
    {record : SlotRecord}
    (held : proc.server.ring.logSlotMap.lookup logIdx = some record) :
    0 < logIdx ∧
      ∃ entry,
        placed[logIdx - 1]? = some (entry, record.start) ∧
          record.numSlots = entry.needed := by
  obtain ⟨position, command, index, found, slots⟩ :=
    records.recalls.records logIdx record held
  obtain ⟨entry, start⟩ := records.starts logIdx record held
  refine ⟨by omega, entry, start, ?_⟩
  have same : logIdx - 1 = position := by
    omega
  rw [List.getElem?_map, ← same, start, Option.map_some,
    Option.some.injEq] at found
  rw [slots, ← found]
  rfl

/-- The entry of a record is in memory with the term of the placed one. -/
theorem Process.Records.term_logAt
    (records : proc.Records layout placed)
    (small : placed.length + 1 < 2 ^ 64)
    {logIdx start : Nat}
    {record : SlotRecord}
    {entry : Entry}
    (held : proc.server.ring.logSlotMap.lookup logIdx = some record)
    (found : placed[logIdx - 1]? = some (entry, start)) :
    (proc.server.logAt logIdx).term = entry.term := by
  have short := records.short
  have above := (records.placedAt held).1
  have inMemory := records.recalls.inMemory logIdx record held
  have tail : proc.server.ring.tailLogIndex = _ :=
    records.recalls.entries.tail
  rw [List.length_map] at tail
  have within := (List.getElem?_eq_some_iff.mp found).1
  obtain ⟨front, split⟩ := records.terms
  -- The last terms of the log are found in the placed ones from the end.
  have lengths := congrArg List.length split
  rw [List.length_append, List.length_drop, List.length_map] at lengths
  have viewed :
      proc.server.view.log.length = proc.server.raft.log.length :=
    List.length_map _
  have inLog :
      proc.server.raft.log.length -
          (proc.server.ring.tailLogIndex - logIdx) <
        proc.server.raft.log.length := by
    omega
  have placedTerm :
      (placed.map fun item => item.1.term)[logIdx - 1]? =
        some entry.term := by
    rw [List.getElem?_map, found]
    rfl
  have position :
      1 + (logIdx - 1 - front.length) =
        proc.server.raft.log.length -
          (proc.server.ring.tailLogIndex - logIdx) := by
    omega
  rw [← split, List.getElem?_append_right (by omega), List.getElem?_drop,
    position] at placedTerm
  change (proc.server.raft.log.map Entry.term)[_]? = _ at placedTerm
  rw [List.getElem?_map, List.getElem?_eq_getElem inLog, Option.map_some,
    Option.some.injEq] at placedTerm
  rw [Server.logAt, logSlice_fromEnd (by omega) (by omega) inMemory,
    List.getD_eq_getElem?_getD, List.getElem?_eq_getElem inLog]
  exact placedTerm

/-- The slots of a front of the batch. -/
theorem slotsOfMetas_of_sizes
    {server : Server}
    (filled :
      call.req.entryMetas =
        (List.range call.lenEntries).map fun offset =>
          (server.logAt (call.next + offset)).toMeta)
    (sizes : server.sizesMatch call = true) :
    ∀ count,
      count < call.lenEntries →
      slotsOfMetas (call.req.entryMetas.take count) =
        server.slotsOfRange call.next count := by
  intro count
  induction count with
  | zero =>
      intro _
      rw [List.take_zero]
      rfl
  | succ count inductionHypothesis =>
      intro inside
      have found :
          call.req.entryMetas[count]? =
            some (server.logAt (call.next + count)).toMeta := by
        rw [filled, List.getElem?_map, List.getElem?_range (by omega)]
        rfl
      have size := List.all_eq_true.mp sizes count
        (List.mem_range.mpr (by omega))
      rw [slotsOfMetas_take_succ found, inductionHypothesis (by omega),
        Server.slotsOfRange, of_decide_eq_true size]

variable {fi : Nat} {outcomes : IoOutcomes}

/-- A leader's request with matching metadata describes placed entries. -/
theorem Process.Records.describes
    (records : proc.Records layout placed)
    (small : placed.length + 1 < 2 ^ 64)
    (contiguous : layout.Contiguous)
    (sizes : (proc.server.withOutcomes outcomes).sendsSizes fi = true)
    (built :
      (proc.server.withOutcomes outcomes).builtCall? fi = some call) :
    call.req.Sound proc.server.raft.clusterIndex layout placed := by
  intro data
  have positive := records.recalls.chaining.wellformed.positive
  have tiled : Tiles 0 (proc.server.withOutcomes outcomes).io.extents :=
    (congrArg (fun layout => Tiles 0 layout.extents)
      records.recalls.layout).mpr contiguous.tiles
  have counts : call.req.numEntries = call.lenEntries := by
    have spec :
        wp (appendEntriesSend fi)
          (fun built _ =>
            ∀ call,
              built = some call → call.req.numEntries = call.lenEntries)
          (fun _ _ => True) (proc.server.withOutcomes outcomes) :=
      wp_mono (appendEntriesSend_spec fi positive)
        (fun _ _ ends call sent => (ends.2 call sent).1.numEntries)
        fun _ _ _ => trivial
    exact wp_builtCall spec built
  rw [counts] at data
  obtain ⟨plan, planned⟩ :=
    wp_builtCall (appendEntriesSend_planned tiled positive) built data
  have faithful := records.recalls.faithful contiguous planned
  rw [Server.sendsSizes, built, Option.all_some] at sizes
  obtain ⟨bounded, filled⟩ := planned
  have metas :
      call.req.entryMetas =
        (List.range call.lenEntries).map fun offset =>
          (proc.server.logAt (call.next + offset)).toMeta := by
    rw [filled]
    rfl
  have counted : call.req.entryMetas.length = call.lenEntries := by
    rw [metas, List.length_map, List.length_range]
  have previous : call.req.prevLogIndex + 1 = call.next := by
    obtain ⟨record, held, -⟩ := faithful.records 0 data
    have above := (records.placedAt held).1
    have same : call.req.prevLogIndex = call.next - 1 := by
      rw [filled]
      rfl
    omega
  have inLog : call.next + call.lenEntries ≤ placed.length + 1 := by
    have upto : proc.server.ring.tailLogIndex = _ :=
      records.recalls.entries.tail
    rw [List.length_map] at upto
    have last := bounded.fits.inLog
    have tail :
        ((proc.server.withOutcomes outcomes).clampNext fi).lastLogIndex =
          proc.server.ring.tailLogIndex - 1 :=
      rfl
    rw [tail, upto] at last
    rw [filled]
    dsimp only
    omega
  have ringSlots : proc.server.ring.ringSlots = layout.ringSlots :=
    congrArg RingLayout.ringSlots records.recalls.layout
  have inRing :
      call.req.startSlot +
          proc.server.slotsOfRange call.next call.lenEntries ≤
        layout.ringSlots := by
    have ends := bounded.fits.inRing
    simp only [slotsOfRange_clampNext, slotsOfRange_withOutcomes] at ends
    rw [← ringSlots, filled]
    exact ends
  have monotone := (slotsOfRange_strictMono positive call.next).monotone
  have front := slotsOfMetas_of_sizes metas sizes
  refine ⟨counts ▸ data, ?_, counted.trans counts.symm, ?_, ?_, ?_, ?_, ?_,
    ?_⟩
  · rw [filled]
    rfl
  · omega
  · obtain ⟨length, segment, located, address⟩ := bounded.located
    obtain ⟨extent, found⟩ := covering_of_lookup located
    have same :
        ((proc.server.withOutcomes outcomes).clampNext fi).io.extents =
          layout.extents :=
      congrArg RingLayout.extents records.recalls.layout
    rw [same] at located found
    rw [contiguous.tiles.lookup found, Except.ok.injEq] at located
    rw [filled]
    show physicalAt layout.extents (slotOffset plan.startSlot) =
      some plan.leaderPbaSrc
    rw [physicalAt, found, ← address, ← located]
    rfl
  · rw [faithful.slots]
    exact inRing
  · obtain ⟨last, held, -⟩ :=
      faithful.records (call.lenEntries - 1) (by omega)
    have found :
        call.req.entryMetas[call.lenEntries - 1]? =
          some (proc.server.logAt
            (call.next + (call.lenEntries - 1))).toMeta := by
      rw [metas, List.getElem?_map, List.getElem?_range (by omega)]
      rfl
    have whole :
        call.req.entryMetas =
          call.req.entryMetas.take (call.lenEntries - 1 + 1) := by
      rw [List.take_of_length_le (by omega)]
    have short := records.short
    obtain ⟨position, command, -, -, slots, slot, recalled⟩ :=
      records.recalls.logAt (by omega) held
    have size := recalled.toMeta_le slot
    have range :
        proc.server.slotsOfRange call.next (call.lenEntries - 1 + 1) =
          proc.server.slotsOfRange call.next (call.lenEntries - 1) +
            last.numSlots := by
      rw [Server.slotsOfRange, slotsForLogIndex_of_lookup held]
    rw [Nat.sub_add_cancel data] at range
    rw [whole, slotsOfMetas_take_succ found, front _ (by omega)]
    omega
  · intro offset entry start inside found
    rw [counts] at inside
    obtain ⟨record, held, starts⟩ := faithful.records offset inside
    obtain ⟨-, same, inPlaced, needed⟩ := records.placedAt held
    have position :
        call.next + offset - 1 = call.req.prevLogIndex + offset := by
      omega
    rw [position, found, Option.some.injEq, Prod.mk.injEq] at inPlaced
    obtain ⟨rfl, rfl⟩ := inPlaced
    have next :
        proc.server.slotsOfRange call.next (offset + 1) =
          proc.server.slotsOfRange call.next offset + record.numSlots := by
      rw [Server.slotsOfRange, slotsForLogIndex_of_lookup held]
    have ends := monotone (show offset + 1 ≤ call.lenEntries from inside)
    refine ⟨?_, ?_⟩
    · rw [front offset inside, starts]
    · rw [faithful.slots]
      omega
  · intro offset entry start inside found
    rw [counts] at inside
    obtain ⟨record, held, -⟩ := faithful.records offset inside
    have position :
        call.next + offset - 1 = call.req.prevLogIndex + offset := by
      omega
    have inBatch :
        call.req.entryMetas[offset]? =
          some (proc.server.logAt (call.next + offset)).toMeta := by
      rw [metas, List.getElem?_map, List.getElem?_range inside]
      rfl
    have short := records.short
    obtain ⟨place, command, index, there, -, slot, recalled⟩ :=
      records.recalls.logAt (by omega) held
    have same : place = call.req.prevLogIndex + offset := by
      omega
    rw [same, List.getElem?_map, found, Option.map_some,
      Option.some.injEq] at there
    refine ⟨_, inBatch, ?_, ?_⟩
    · exact records.term_logAt small held (position ▸ found)
    · rw [show entry.command = command from there]
      exact recalled.toMeta_length_or slot

end

end NvmeofRaft
