import NvmeofRaft.SectionDispatch

namespace NvmeofRaft

/-!
# Slot records

What the sections do to `log_slot_map`.  Only a leader's appends add records,
for the indices they append, and only the garbage collection removes some.
-/

/-- The slot records, and up to where they have been collected. -/
structure SlotView where
  slots : SlotMap
  gcUpTo : Nat

/-- The slot records of a server. -/
def Server.slotView (server : Server) : SlotView where
  slots := server.ring.logSlotMap
  gcUpTo := server.ring.gcUpTo

/-- Records are kept or are not empty and belong to indices from `low` on. -/
structure SlotView.Gains
    (low : Nat)
    (before after : SlotView) : Prop where
  gcUpTo : after.gcUpTo = before.gcUpTo
  records :
    ∀ logIdx record,
      after.slots.lookup logIdx = some record →
      before.slots.lookup logIdx = some record ∨
        0 < record.numSlots ∧ low ≤ logIdx

theorem SlotView.Gains.refl
    (low : Nat)
    (slotView : SlotView) :
    SlotView.Gains low slotView slotView :=
  ⟨rfl, fun _ _ held => Or.inl held⟩

/--
Gains above one index, then above a higher one, are gains above the first.
-/
theorem SlotView.Gains.trans
    {low high : Nat}
    {first second third : SlotView}
    (order : low ≤ high)
    (lower : SlotView.Gains low first second)
    (upper : SlotView.Gains high second third) :
    SlotView.Gains low first third where
  gcUpTo := upper.gcUpTo.trans lower.gcUpTo
  records := by
    intro logIdx record held
    rcases upper.records logIdx record held with earlier | ⟨positive, above⟩
    · exact lower.records logIdx record earlier
    · exact Or.inr ⟨positive, order.trans above⟩

section

variable {server : Server}

theorem flushRun_slots
    (runOff : Nat) :
    Frames Server.slotView (flushRun runOff) := by
  have written :
      ∀ data offset, Frames Server.slotView (writeAtFile data offset) :=
    fun data offset =>
      (writeAtFile_besidesFile data offset).coarsen Server.slotView
        fun _ => rfl
  exact Frames.bind Frames.get fun _ =>
    Frames.ite (Frames.pure _)
      (Frames.bind (written _ _) fun _ =>
        Frames.bind (Frames.modifyState fun _ => rfl) fun _ => Frames.pure _)

theorem wrapTail_slots
    (needed runOff : Nat) :
    Frames Server.slotView (wrapTail needed runOff) :=
  Frames.bind Frames.get fun _ =>
    Frames.ite
      (Frames.bind (flushRun_slots _) fun _ =>
        Frames.bind (Frames.modifyState fun _ => rfl) fun _ => Frames.pure _)
      (Frames.pure _)

theorem skipExtentEnd_slots
    (needed runOff : Nat)
    (extHint : Int) :
    Frames Server.slotView (skipExtentEnd needed runOff extHint) := by
  refine Frames.bind Frames.get fun server =>
    Frames.ite (Frames.pure _) (Frames.ite ?_ (Frames.pure _))
  exact Frames.bind (flushRun_slots _) fun _ =>
    Frames.bind (Frames.modifyState fun _ => rfl) fun _ =>
      Frames.bind Frames.get fun _ => Frames.pure _

/-- Placing an entry records slots for its index. -/
theorem placeEntry_slots
    (entry : Entry)
    (logIdx runOff : Nat)
    {needed : Nat}
    (positive : 0 < needed) :
    wp (placeEntry entry needed logIdx runOff)
      (fun _ final => SlotView.Gains logIdx server.slotView final.slotView)
      (fun _ final => SlotView.Gains logIdx server.slotView final.slotView)
      server := by
  simp only [placeEntry, modifyRing, wp_bind, wp_get, wp_ite, wp_pure,
    wp_modify]
  split
  · refine ⟨rfl, fun index record held => ?_⟩
    simp only [Server.slotView] at held ⊢
    by_cases same : index = logIdx
    · subst same
      rw [AList.lookup_insert] at held
      cases held
      exact Or.inr ⟨positive, le_refl _⟩
    · rw [AList.lookup_insert_ne same] at held
      exact Or.inl held
  · exact ⟨rfl, fun _ _ held => Or.inl held⟩

/-- Placing entries records slots from the first index on. -/
theorem persistEntries_slots :
    ∀ (entries : List Entry) (logIdx : Nat) (cursor : Nat × Int)
      (server : Server),
      wp (persistEntries entries logIdx cursor)
        (fun _ final =>
          SlotView.Gains logIdx server.slotView final.slotView)
        (fun _ final =>
          SlotView.Gains logIdx server.slotView final.slotView)
        server := by
  intro entries
  induction entries with
  | nil =>
      intro logIdx cursor server
      exact SlotView.Gains.refl _ _
  | cons entry rest inductionHypothesis =>
      intro logIdx cursor server
      simp only [persistEntries, persistEntry, wp_bind, wp_pure]
      refine wp_mono ((wrapTail_slots _ _).ends server) ?_ ?_
      · intro runOff wrapped sameWrapped
        refine wp_mono ((skipExtentEnd_slots _ _ _).ends wrapped) ?_ ?_
        · intro skippedCursor skipped sameSkipped
          have same := sameSkipped.trans sameWrapped
          refine wp_mono (placeEntry_slots _ _ _ (slotsForEntry_pos _)) ?_ ?_
          · intro placedOff placed gained
            rw [same] at gained
            refine wp_mono (inductionHypothesis _ _ placed) ?_ ?_
            · exact fun _ _ later => gained.trans (Nat.le_succ _) later
            · exact fun _ _ later => gained.trans (Nat.le_succ _) later
          · intro _ _ gained
            rwa [same] at gained
        · intro _ _ same
          rw [same, sameWrapped]
          exact SlotView.Gains.refl _ _
      · intro _ _ same
        rw [same]
        exact SlotView.Gains.refl _ _

/-- Where the indices of a persist call begin. -/
def Server.firstPersisted
    (server : Server)
    (count : Nat) :
    Nat :=
  let size := server.raft.log.length
  sub64 server.ring.tailLogIndex (size - max 1 (size - count))

theorem persistLog_slots
    (count : Nat)
    (server : Server) :
    wp (persistLog count)
      (fun _ final =>
        SlotView.Gains (server.firstPersisted count) server.slotView
          final.slotView)
      (fun _ final =>
        SlotView.Gains (server.firstPersisted count) server.slotView
          final.slotView) server := by
  simp only [persistLog, modifyRing, wp_bind, wp_get, wp_modify, wp_discard]
  refine wp_mono (persistEntries_slots _ _ _ _) ?_ fun _ _ gained => gained
  intro cursor placed gained
  refine wp_mono ((flushRun_slots _).ends placed) ?_ ?_
  · intro _ final same
    rw [same]
    exact gained
  · intro _ final same
    rw [same]
    exact gained

theorem persistSync_slots
    (logging : Bool) :
    Frames Server.slotView (persistSync logging) :=
  (persistSync_besidesFile logging).coarsen Server.slotView fun _ => rfl

/-- Persisting the header alone adds no record. -/
theorem persistHeaderOnly_slots :
    Frames Server.slotView (persistCircular false 0) :=
  persistHeaderOnly_besidesFile.coarsen Server.slotView fun _ => rfl

/-- A call with new entries records slots for them only, also when it fails. -/
theorem persistCircular_slots
    {count : Nat}
    (some : 0 < count)
    (server : Server) :
    wp (persistCircular true count)
      (fun _ final =>
        SlotView.Gains (server.firstPersisted count) server.slotView
          final.slotView)
      (fun _ final =>
        SlotView.Gains (server.firstPersisted count) server.slotView
          final.slotView) server := by
  simp only [persistCircular, wp_bind, wp_get, wp_modify,
    Nat.ne_of_gt some, false_and, if_false, true_and, some, if_true]
  refine wp_mono (persistLog_slots count server) ?_ fun _ _ gained => gained
  intro _ logged gained
  refine wp_mono ((persistSync_slots true).ends logged) ?_ ?_
  · intro _ synced same
    have noted :
        (notePersistReturn synced).slotView = synced.slotView := rfl
    rw [noted, same]
    exact gained
  · intro _ final same
    rw [same]
    exact gained

end

theorem appendMetas_slots
    (skipEntries : Nat) :
    ∀ (metas : List EntryMeta) (index : Nat) (server : Server),
      (appendMetas skipEntries index metas server).slotView =
        server.slotView := by
  intro metas index server
  obtain ⟨log, tailSlot, same⟩ :=
    appendMetas_only skipEntries metas index server
  rw [same]
  rfl

theorem signalCommittedFrom_slots :
    ∀ count logIdx (server : Server),
      (signalCommittedFrom count logIdx server).slotView =
        server.slotView := by
  intro count logIdx server
  obtain ⟨log, same⟩ := signalCommittedFrom_only count logIdx server
  rw [same]
  rfl

theorem applyPendingLoop_slots
    (oldest : Nat) :
    ∀ bound (server : Server),
      (applyPendingLoop oldest bound server).slotView = server.slotView := by
  intro bound server
  obtain ⟨log, lastApplied, statemachine, results, same⟩ :=
    applyPendingLoop_only oldest bound server
  rw [same]
  rfl

theorem bookAnswer_slots
    (server : Server)
    (fi : Nat)
    (call : AppendCall)
    (answer : Option AppendEntriesResponse) :
    (server.bookAnswer fi call answer).slotView = server.slotView := by
  obtain ⟨cluster, same⟩ := bookAnswer_only server fi call answer
  rw [same]
  rfl

/-- Quiet sections do not touch the slot records. -/
theorem slotView_unaffected :
    Unaffected Server.slotView where
  header := persistHeaderOnly_slots
  demote _ _ := rfl
  startElection _ := rfl
  setVotedFor _ _ := rfl
  recordVote _ _ := rfl
  stepDown server req := by
    unfold Server.stepDown
    split <;> rfl
  tailSlot _ _ := rfl
  buildLog server req newTail skipEntries := by
    unfold Server.buildLog
    split
    · exact appendMetas_slots skipEntries req.entryMetas 0 server
    · rfl
  followCommit _ _ := rfl
  clampNext _ _ := rfl
  setInflight _ _ _ := rfl
  bookAnswer := bookAnswer_slots
  commitTo _ _ := signalCommittedFrom_slots _ _ _
  applyCommitted server := by
    unfold Server.applyCommitted
    split
    · exact applyPendingLoop_slots _ _ server
    · rfl

/-- What the garbage collection does to the slot records. -/
structure Server.Collected
    (before after : Server) : Prop where
  records :
    ∀ logIdx record,
      after.ring.logSlotMap.lookup logIdx = some record →
      before.ring.logSlotMap.lookup logIdx = some record ∧
        (before.ring.gcUpTo < logIdx → after.ring.gcUpTo < logIdx)
  bound :
    after.ring.gcUpTo ≤
      max before.ring.gcUpTo (before.ring.tailLogIndex - 1)
  oldest :
    before.view.log.length - 1 ≤ before.view.tail →
    after.view.oldest ≤ max before.view.oldest after.ring.gcUpTo

/-- What a section can do to the slot records. -/
inductive Server.SlotChange
    (before after : Server) : Prop where
  | kept :
      after.slotView = before.slotView →
      SlotChange before after
  | gained :
      (∀ logIdx record,
        after.ring.logSlotMap.lookup logIdx = some record →
        (∃ old,
          before.ring.logSlotMap.lookup logIdx = some old ∧
            old.numSlots = record.numSlots) ∨
          0 < record.numSlots ∧ before.ring.tailLogIndex ≤ logIdx) →
      after.ring.gcUpTo ≤ before.ring.gcUpTo →
      SlotChange before after
  | collected :
      before.Collected after →
      SlotChange before after

/--
What a section does to the slot records: a new leader and a leader that
appends add records from the tail on, and a leader collects.
-/
inductive Server.SlotStep
    (before after : Server) : Prop where
  | kept :
      after.slotView = before.slotView →
      SlotStep before after
  | elected :
      SlotView.Gains before.ring.tailLogIndex
        { slots := before.ring.logSlotMap.markUsing, gcUpTo := 0 }
        after.slotView →
      SlotStep before after
  | appended :
      before.raft.state = .leader →
      SlotView.Gains before.ring.tailLogIndex before.slotView
        after.slotView →
      SlotStep before after
  | collected :
      before.raft.state = .leader →
      before.Collected after →
      after.slotView =
        { slots := eraseSlots (before.minMatch - before.ring.gcUpTo)
            (before.ring.gcUpTo + 1) before.ring.logSlotMap
          gcUpTo := before.minMatch } →
      SlotStep before after

/-- Marking changes the state of a record and not its slots. -/
theorem lookup_markUsing
    (slots : SlotMap)
    (logIdx : Nat) :
    slots.markUsing.lookup logIdx =
      (slots.lookup logIdx).map fun record =>
        { record with state := .using } := by
  let mark : Nat → SlotRecord → SlotRecord :=
    fun _ record => { record with state := .using }
  have marked := List.dlookup_map₂ (l := slots.entries) (f := mark) logIdx
  exact marked

/-- A change of records is one of the three kinds. -/
theorem Server.SlotStep.slotChange
    {before after : Server}
    (step : before.SlotStep after) :
    before.SlotChange after := by
  cases step with
  | kept same =>
      exact .kept same
  | elected gained =>
      refine .gained (fun logIdx record held => ?_) ?_
      · rcases gained.records logIdx record held with earlier | added
        · left
          simp only [lookup_markUsing, Option.map_eq_some_iff] at earlier
          obtain ⟨old, found, rfl⟩ := earlier
          exact ⟨old, found, rfl⟩
        · exact Or.inr added
      · have same : after.ring.gcUpTo = 0 := gained.gcUpTo
        omega
  | appended _ gained =>
      refine .gained (fun logIdx record held => ?_) (le_of_eq gained.gcUpTo)
      rcases gained.records logIdx record held with earlier | added
      · exact Or.inl ⟨record, earlier, rfl⟩
      · exact Or.inr added
  | collected _ collected _ =>
      exact .collected collected

theorem recomputeHeadSlot_slots
    (ring : RingLog) :
    (recomputeHeadSlot ring).logSlotMap = ring.logSlotMap ∧
      (recomputeHeadSlot ring).gcUpTo = ring.gcUpTo := by
  obtain ⟨headSlot, same⟩ := recomputeHeadSlot_only ring
  rw [same]
  exact ⟨rfl, rfl⟩

theorem applyLoaded_slots
    (oldest : Nat) :
    ∀ bound (server : Server),
      (applyLoaded oldest bound server).slotView = server.slotView := by
  intro bound server
  obtain ⟨lastApplied, statemachine, same⟩ :=
    applyLoaded_only oldest bound server
  rw [same]
  rfl

/-- A new leader keeps the records and collects from the beginning. -/
theorem promote_slots
    (server : Server)
    (load : Nat → Option (List UInt8)) :
    (server.promote load).slotView =
      { slots := server.ring.logSlotMap.markUsing, gcUpTo := 0 } := by
  show (Server.applyLoadedEntries _).slotView = _
  rw [Server.applyLoadedEntries, applyLoaded_slots]
  have same := recomputeHeadSlot_slots
    { server.ring with logSlotMap := server.ring.logSlotMap.markUsing }
  simp only [Server.loadDeferredEntries, Server.takeLead, Server.mapRaft,
    Server.slotView, rebuildSlotStatesFromMap, same.1]

/-- The first index a call persists is the tail before its pushes. -/
theorem firstPersisted_eq
    {server : Server}
    {view : View}
    {count : Nat}
    (sentinel : view.log ≠ [])
    (pushed : server.view.log.length = view.log.length + count)
    (advanced : server.view.tail = view.tail + count) :
    server.firstPersisted count = view.tail := by
  have size : server.raft.log.length = view.log.length + count := by
    simpa [Server.view] using pushed
  have tail : server.ring.tailLogIndex = view.tail + count := advanced
  have positive := List.length_pos_of_ne_nil sentinel
  unfold Server.firstPersisted
  dsimp only
  rw [size, tail, sub64_of_le (by omega)]
  omega

/-- A node that wins marks its records and adds the one of its no-op. -/
theorem becomeLeader_elects
    (load : Nat → Option (List UInt8))
    {server : Server}
    (sentinel : server.view.log ≠ [])
    (won : server.quorumLeft = 0) :
    wp (becomeLeader load)
      (fun _ final =>
        SlotView.Gains server.ring.tailLogIndex
          { slots := server.ring.logSlotMap.markUsing, gcUpTo := 0 }
          final.slotView)
      (fun _ final =>
        SlotView.Gains server.ring.tailLogIndex
          { slots := server.ring.logSlotMap.markUsing, gcUpTo := 0 }
          final.slotView) server := by
  have promotedSlots := promote_slots server load
  have first : (server.promote load).firstPersisted 1 =
      server.ring.tailLogIndex := by
    obtain ⟨applied, -, viewed⟩ := promote_view server load
    refine firstPersisted_eq sentinel ?_ ?_
    · rw [viewed]
      simp [View.promoted, View.push]
    · rw [viewed]
      rfl
  have persisted := persistCircular_slots Nat.one_pos (server.promote load)
  rw [first, promotedSlots] at persisted
  simp only [becomeLeader, wp_bind, wp_get, wp_ite, wp_modify, won, if_true]
  exact persisted

/-- What a promotion does to the records. -/
theorem becomeLeader_slots
    (load : Nat → Option (List UInt8))
    {server : Server}
    (sentinel : server.view.log ≠ []) :
    wp (becomeLeader load)
      (fun _ final => server.SlotStep final)
      (fun _ final => server.SlotStep final) server := by
  by_cases won : server.quorumLeft = 0
  · refine wp_mono (becomeLeader_elects load sentinel won) ?_ ?_
    · exact fun _ _ gained => .elected gained
    · exact fun _ _ gained => .elected gained
  · simp only [becomeLeader, wp_bind, wp_get, wp_ite, wp_pure, won, if_false]
    exact .kept rfl

theorem appendCommands_slots
    (sink : Nat) :
    ∀ (commands : List (List UInt8)) (server : Server),
      (server.appendCommands sink commands).slotView =
        server.slotView := by
  intro commands server
  obtain ⟨log, tailLogIndex, same⟩ :=
    appendCommands_only sink commands server
  rw [same]
  rfl

theorem popEntries_slots :
    ∀ count (server : Server),
      (server.popEntries count).slotView = server.slotView := by
  intro count server
  obtain ⟨log, tailLogIndex, same⟩ := popEntries_only count server
  rw [same]
  rfl

/-- What a client call does to the records. -/
theorem applyCommands_slots
    (sink : Nat)
    (commands : List (List UInt8))
    {server : Server}
    (sentinel : server.view.log ≠ []) :
    wp (applyCommands sink commands)
      (fun _ final => server.SlotStep final)
      (fun _ final => server.SlotStep final) server := by
  have appended := appendCommands_slots sink commands server
  have first :
      (server.appendCommands sink commands).firstPersisted commands.length =
        server.ring.tailLogIndex := by
    have viewed := appendCommands_view sink commands server
    refine firstPersisted_eq sentinel ?_ ?_
    · rw [viewed]
      simp [View.pushMany]
    · rw [viewed]
      rfl
  simp only [applyCommands, wp_bind, wp_get, wp_ite, wp_pure, wp_modify,
    wp_tryCatch]
  split_ifs with empty follower full
  · exact .kept rfl
  · exact .kept rfl
  · exact .kept rfl
  · have leader : server.raft.state = .leader := not_not.mp follower
    have some : 0 < commands.length :=
      List.length_pos_of_ne_nil (by simpa using empty)
    refine wp_mono (persistCircular_slots some _) ?_ ?_
    · intro _ final gained
      rw [first, appended] at gained
      exact .appended leader gained
    · intro _ final gained
      rw [first, appended] at gained
      refine .appended leader ?_
      rw [popEntries_slots]
      exact gained

/-- The erase loop removes the indices it passes and keeps the others. -/
theorem lookup_eraseSlots :
    ∀ (count first : Nat) (slots : SlotMap) (logIdx : Nat)
      (record : SlotRecord),
      (eraseSlots count first slots).lookup logIdx = some record →
      slots.lookup logIdx = some record ∧
        (logIdx < first ∨ first + count ≤ logIdx) := by
  intro count
  induction count with
  | zero =>
      intro first slots logIdx record held
      exact ⟨held, by omega⟩
  | succ count inductionHypothesis =>
      intro first slots logIdx record held
      obtain ⟨erased, outside⟩ := inductionHypothesis _ _ _ _ held
      by_cases same : logIdx = first
      · subst same
        rw [AList.lookup_erase] at erased
        cases erased
      · rw [AList.lookup_erase_ne same] at erased
        exact ⟨erased, by omega⟩

/-- Freeing erases the records up to the matched index. -/
theorem freeSlots_records
    (ring : RingLog)
    (minMatch : Nat) :
    (ring.freeSlots minMatch).logSlotMap =
        eraseSlots (minMatch - ring.gcUpTo) (ring.gcUpTo + 1)
          ring.logSlotMap ∧
      (ring.freeSlots minMatch).gcUpTo = minMatch := by
  obtain ⟨headSlot, same⟩ := freeSlots_only ring minMatch
  rw [same]
  exact ⟨rfl, rfl⟩

/-- Trimming the log keeps every record. -/
theorem trimLogLocked_slots
    (minMatch : Nat)
    (server : Server) :
    (trimLogLocked minMatch server).slotView = server.slotView := by
  obtain ⟨log, same⟩ := trimLogLocked_only minMatch server
  rw [same]
  rfl

/-- Trimming moves the oldest index up to the collected one at most. -/
theorem trimLogLocked_oldest
    (minMatch : Nat)
    (server : Server)
    (indexed : server.view.log.length - 1 ≤ server.view.tail) :
    (trimLogLocked minMatch server).view.oldest ≤
      max server.view.oldest minMatch := by
  have indexed' :
      server.raft.log.length - 1 ≤ server.ring.tailLogIndex := by
    simpa [Server.view] using indexed
  unfold trimLogLocked
  dsimp only
  split
  · exact le_max_left _ _
  · rename_i trims
    rw [← oldestLogIndex_eq, ← oldestLogIndex_eq]
    simp only [Server.oldestLogIndex, Server.mapRaft, List.length_append,
      List.length_take, List.length_drop] at trims ⊢
    rw [sub64_of_le indexed'] at trims ⊢
    rw [sub64_of_le (by omega)]
    omega

/-- Garbage collection erases what every follower has matched. -/
theorem collectGarbage_slots
    {server : Server}
    (leader : server.raft.state = .leader) :
    server.collectGarbage.slotView =
      { slots := eraseSlots (server.minMatch - server.ring.gcUpTo)
          (server.ring.gcUpTo + 1) server.ring.logSlotMap
        gcUpTo := server.minMatch } := by
  obtain ⟨sameMap, sameUpTo⟩ :=
    freeSlots_records server.ring server.minMatch
  rw [Server.collectGarbage, if_pos leader, trimLogLocked_slots]
  simp only [Server.slotView, sameMap, sameUpTo]

theorem collectGarbage_collected
    {server : Server}
    (leader : server.raft.state = .leader) :
    server.Collected server.collectGarbage := by
  have slots := collectGarbage_slots leader
  have sameMap := congrArg SlotView.slots slots
  have sameUpTo := congrArg SlotView.gcUpTo slots
  simp only [Server.slotView] at sameMap sameUpTo
  refine ⟨?_, ?_, ?_⟩
  · intro logIdx record held
    rw [sameMap] at held
    obtain ⟨earlier, outside⟩ := lookup_eraseSlots _ _ _ _ _ held
    rw [sameUpTo]
    exact ⟨earlier, by omega⟩
  · rw [sameUpTo]
    exact (minMatch_le server).trans (le_max_right _ _)
  · intro indexed
    rw [sameUpTo]
    have oldest := trimLogLocked_oldest server.minMatch
      { server with ring := server.ring.freeSlots server.minMatch }
    rw [freeSlots_view] at oldest
    rw [Server.collectGarbage, if_pos leader]
    exact oldest indexed

theorem doSlotGc_slots
    (server : Server) :
    wp doSlotGc
      (fun _ final =>
        server.raft.state = .leader ∧ server.Collected final ∧
            final.slotView =
              { slots := eraseSlots (server.minMatch - server.ring.gcUpTo)
                  (server.ring.gcUpTo + 1) server.ring.logSlotMap
                gcUpTo := server.minMatch } ∨
          final = server)
      (fun _ _ => False) server := by
  simp only [doSlotGc, wp_modify]
  by_cases leader : server.raft.state = .leader
  · exact Or.inl ⟨leader, collectGarbage_collected leader,
      collectGarbage_slots leader⟩
  · exact Or.inr (if_neg leader)

/-- The slot records after the body of an act. -/
theorem body_slots
    {proc : Process}
    (outcomes : IoOutcomes)
    (act : Act)
    (sentinel : proc.server.view.log ≠ []) :
    proc.BodySpec outcomes act proc.server.SlotStep
      proc.server.SlotStep := by
  unfold Process.BodySpec
  by_cases quiet : proc.Quiet act
  · refine wp_mono ((body_frames slotView_unaffected quiet).ends _) ?_ ?_
    · exact fun _ _ same => .kept same
    · exact fun _ _ same => .kept same
  · have started :
        ∀ final, (proc.server.withOutcomes outcomes).SlotStep final →
          proc.server.SlotStep final := by
      intro final change
      cases change with
      | kept same =>
          exact .kept same
      | elected gained =>
          exact .elected gained
      | appended leader gained =>
          exact .appended leader gained
      | collected leader collected slots =>
          exact .collected leader
            ⟨collected.records, collected.bound, collected.oldest⟩ slots
    rcases body_loud quiet with ⟨load, same⟩ | ⟨sink, commands, same⟩ | same
    · rw [same]
      exact wp_mono (becomeLeader_slots load sentinel)
        (fun _ _ change => started _ change)
        fun _ _ change => started _ change
    · rw [same, wp_discard]
      exact wp_mono (applyCommands_slots sink commands sentinel)
        (fun _ _ change => started _ change)
        fun _ _ change => started _ change
    · rw [same]
      refine wp_mono (doSlotGc_slots _) ?_ fun _ _ never => never.elim
      rintro _ final (⟨leader, collected, slots⟩ | rfl)
      · exact started _ (.collected leader collected slots)
      · exact .kept rfl

/-- A step that is no restart changes the slot records as listed. -/
theorem Process.step_slotStep
    {proc : Process}
    {outcomes : IoOutcomes}
    {act : Act}
    {result : Process × Outputs}
    (sentinel : proc.server.view.log ≠ [])
    (stepped : proc.step outcomes act = some result)
    (noRestart : ∀ kernel cacheLost, act ≠ .restart kernel cacheLost) :
    proc.server.SlotStep result.1.server := by
  rcases Process.step_ends (body_slots outcomes act sentinel) stepped
    noRestart with unchanged | returned | ⟨threw, -⟩
  · rw [unchanged]
    exact .kept rfl
  · exact returned
  · exact threw

theorem Process.step_slots
    {proc : Process}
    {outcomes : IoOutcomes}
    {act : Act}
    {result : Process × Outputs}
    (sentinel : proc.server.view.log ≠ [])
    (stepped : proc.step outcomes act = some result)
    (noRestart : ∀ kernel cacheLost, act ≠ .restart kernel cacheLost) :
    proc.server.SlotChange result.1.server :=
  (Process.step_slotStep sentinel stepped noRestart).slotChange

/-- A garbage collection section always runs to its end. -/
theorem Process.step_slotGc
    {proc : Process}
    {outcomes : IoOutcomes}
    {result : Process × Outputs}
    (stepped : proc.step outcomes .slotGc = some result) :
    result.1.server = (proc.server.withOutcomes outcomes).collectGarbage := by
  simp only [Process.step] at stepped
  split at stepped
  · cases stepped
  · cases stepped
    rfl

/-- A garbage collection collects. -/
theorem Process.step_collected
    {proc : Process}
    {outcomes : IoOutcomes}
    {result : Process × Outputs}
    (stepped : proc.step outcomes .slotGc = some result) :
    proc.server.Collected result.1.server := by
  rw [Process.step_slotGc stepped]
  by_cases leader : proc.server.raft.state = .leader
  · have collected :=
      @collectGarbage_collected (proc.server.withOutcomes outcomes) leader
    exact ⟨collected.records, collected.bound, collected.oldest⟩
  · have same :
        (proc.server.withOutcomes outcomes).collectGarbage =
          proc.server.withOutcomes outcomes :=
      if_neg leader
    rw [same]
    exact ⟨fun _ _ held => ⟨held, id⟩, le_max_left _ _,
      fun _ => le_max_left _ _⟩

theorem Server.SlotChange.positive
    {before after : Server}
    (change : before.SlotChange after)
    (positive : before.SlotsPositive) :
    after.SlotsPositive := by
  intro logIdx record held
  cases change with
  | kept same =>
      have slots : after.ring.logSlotMap = before.ring.logSlotMap :=
        congrArg SlotView.slots same
      rw [slots] at held
      exact positive logIdx record held
  | gained records _ =>
      rcases records logIdx record held with ⟨old, found, same⟩ | ⟨more, -⟩
      · rw [← same]
        exact positive logIdx old found
      · exact more
  | collected collected =>
      exact positive logIdx record (collected.records logIdx record held).1

end NvmeofRaft
