import NvmeofRaft.AppendEntries
import NvmeofRaft.Apply
import NvmeofRaft.Commit

namespace NvmeofRaft

/-!
# What the loops change

For every loop without I/O, the part of the server that it may change.  What
leaves that part out is the same before and after the loop.
-/

/-- `recompute_head_slot` sets the head slot and nothing else. -/
theorem recomputeHeadSlot_only
    (ring : RingLog) :
    ∃ headSlot, recomputeHeadSlot ring = { ring with headSlot } := by
  unfold recomputeHeadSlot
  split
  · exact ⟨_, rfl⟩
  · dsimp only
    split
    · exact ⟨_, rfl⟩
    · exact ⟨_, rfl⟩

/-- Freeing writes the records, the head slot and `gc_up_to`. -/
theorem freeSlots_only
    (ring : RingLog)
    (minMatch : Nat) :
    ∃ headSlot,
      ring.freeSlots minMatch =
        { ring with
          logSlotMap := eraseSlots (minMatch - ring.gcUpTo) (ring.gcUpTo + 1)
            ring.logSlotMap
          gcUpTo := minMatch
          gcHasRun := true
          headSlot } := by
  unfold RingLog.freeSlots
  dsimp only
  split
  · obtain ⟨headSlot, same⟩ := recomputeHeadSlot_only
      { ring with
        logSlotMap := eraseSlots (minMatch - ring.gcUpTo) (ring.gcUpTo + 1)
          ring.logSlotMap
        gcUpTo := minMatch
        gcHasRun := true }
    exact ⟨headSlot, same⟩
  · exact ⟨ring.headSlot, rfl⟩

/-- Trimming writes the log. -/
theorem trimLogLocked_only
    (minMatch : Nat)
    (server : Server) :
    ∃ log,
      trimLogLocked minMatch server =
        { server with raft := { server.raft with log } } := by
  unfold trimLogLocked
  dsimp only
  split
  · exact ⟨server.raft.log, rfl⟩
  · exact ⟨_, rfl⟩

/-- Signalling entries changes nothing but the log. -/
theorem signalCommittedFrom_only :
    ∀ count logIdx (server : Server),
      ∃ log,
        signalCommittedFrom count logIdx server =
          { server with raft := { server.raft with log } } := by
  intro count
  induction count with
  | zero =>
      intro logIdx server
      exact ⟨server.raft.log, rfl⟩
  | succ count inductionHypothesis =>
      intro logIdx server
      rw [signalCommittedFrom]
      split
      · obtain ⟨log, same⟩ := inductionHypothesis (logIdx + 1)
          (server.mapRaft fun raft =>
            { raft with
              log := raft.log.modify (server.logSlice logIdx)
                Entry.signalCommitted })
        exact ⟨log, same⟩
      · exact inductionHypothesis (logIdx + 1) server

/-- The build loop of the append handler appends entries and passes slots. -/
theorem appendMetas_only
    (skipEntries : Nat) :
    ∀ (metas : List EntryMeta) (index : Nat) (server : Server),
      ∃ log tailSlot,
        appendMetas skipEntries index metas server =
          { server with
            raft := { server.raft with log }
            ring := { server.ring with tailSlot } } := by
  intro metas
  induction metas with
  | nil =>
      intro index server
      exact ⟨server.raft.log, server.ring.tailSlot, rfl⟩
  | cons entryMeta rest inductionHypothesis =>
      intro index server
      obtain ⟨log, tailSlot, same⟩ := inductionHypothesis (index + 1)
        (appendMeta skipEntries index entryMeta server)
      refine ⟨log, tailSlot, same.trans ?_⟩
      unfold appendMeta
      dsimp only
      split
      · rfl
      · rfl

/-- Appending commands writes the log and the tail index. -/
theorem appendCommands_only
    (sink : Nat) :
    ∀ (commands : List (List UInt8)) (server : Server),
      ∃ log tailLogIndex,
        server.appendCommands sink commands =
          { server with
            raft := { server.raft with log }
            ring := { server.ring with tailLogIndex } } := by
  intro commands
  induction commands with
  | nil =>
      intro server
      exact ⟨server.raft.log, server.ring.tailLogIndex, rfl⟩
  | cons command rest inductionHypothesis =>
      intro server
      obtain ⟨log, tailLogIndex, same⟩ := inductionHypothesis
        (server.pushEntry {
          command
          term := server.raft.currentTerm
          resultSink := some sink })
      exact ⟨log, tailLogIndex, same⟩

/-- Rolling back writes the log and the tail index. -/
theorem popEntries_only :
    ∀ count (server : Server),
      ∃ log tailLogIndex,
        server.popEntries count =
          { server with
            raft := { server.raft with log }
            ring := { server.ring with tailLogIndex } } := by
  intro count
  induction count with
  | zero =>
      intro server
      exact ⟨server.raft.log, server.ring.tailLogIndex, rfl⟩
  | succ count inductionHypothesis =>
      intro server
      unfold Server.popEntries
      split
      · obtain ⟨log, tailLogIndex, same⟩ := inductionHypothesis
          { server with
            raft := { server.raft with log := server.raft.log.dropLast }
            ring := { server.ring with
              tailLogIndex := sub64 server.ring.tailLogIndex 1 } }
        exact ⟨log, tailLogIndex, same⟩
      · exact ⟨server.raft.log, server.ring.tailLogIndex, rfl⟩

/-- Lock C books an answer with the members only. -/
theorem bookAnswer_only
    (server : Server)
    (fi : Nat)
    (call : AppendCall)
    (answer : Option AppendEntriesResponse) :
    ∃ cluster,
      server.bookAnswer fi call answer =
        { server with raft := { server.raft with cluster } } := by
  unfold Server.bookAnswer
  generalize landed :
    (if call.hasEntries then server.setInflight fi false else server) = booked
  obtain ⟨cluster, rfl⟩ :
      ∃ cluster,
        booked = { server with raft := { server.raft with cluster } } := by
    rw [← landed]
    split
    · exact ⟨_, rfl⟩
    · exact ⟨server.raft.cluster, rfl⟩
  dsimp only
  split
  · exact ⟨cluster, rfl⟩
  · split_ifs
    · exact ⟨cluster, rfl⟩
    · exact ⟨cluster, rfl⟩
    · exact ⟨_, rfl⟩
    · exact ⟨_, rfl⟩

/-- The apply loop of `become_leader` leaves the entries alone. -/
theorem applyLoaded_only
    (oldest : Nat) :
    ∀ bound (server : Server),
      ∃ lastApplied statemachine,
        applyLoaded oldest bound server =
          { server with
            raft := { server.raft with lastApplied }
            statemachine } := by
  intro bound
  induction bound with
  | zero =>
      intro server
      exact ⟨server.raft.lastApplied, server.statemachine, rfl⟩
  | succ bound inductionHypothesis =>
      intro server
      unfold applyLoaded
      split
      · obtain ⟨lastApplied, statemachine, same⟩ := inductionHypothesis
          { server with
            raft := { server.raft with
              lastApplied := server.raft.lastApplied + 1 }
            statemachine :=
              if (server.logAt server.raft.lastApplied).command.isEmpty then
                server.statemachine
              else
                server.statemachine ++
                  [(server.logAt server.raft.lastApplied).command] }
        exact ⟨lastApplied, statemachine, same⟩
      · exact ⟨server.raft.lastApplied, server.statemachine, rfl⟩

/--
Applying writes the log, `last_applied`, the state machine and the results.
-/
theorem applyPendingLoop_only
    (oldest : Nat) :
    ∀ bound (server : Server),
      ∃ log lastApplied statemachine results,
        applyPendingLoop oldest bound server =
          { server with
            raft := { server.raft with log, lastApplied }
            statemachine
            results } := by
  intro bound
  induction bound with
  | zero =>
      intro server
      exact ⟨server.raft.log, server.raft.lastApplied, server.statemachine,
        server.results, rfl⟩
  | succ bound inductionHypothesis =>
      intro server
      unfold applyPendingLoop
      split
      · obtain ⟨log, lastApplied, statemachine, results, same⟩ :=
          inductionHypothesis server.applyEntry
        exact ⟨log, lastApplied, statemachine, results, same⟩
      · exact ⟨server.raft.log, server.raft.lastApplied,
          server.statemachine, server.results, rfl⟩

end NvmeofRaft
