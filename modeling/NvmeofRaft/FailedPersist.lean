import NvmeofRaft.FreeSlots
import NvmeofRaft.PlacedPrefix

namespace NvmeofRaft

/-!
# The rollback of a failed persist

`apply_internal` catches what `persist_circular` throws and takes the new
entries off the log again.  The slot allocator has moved on by then, and the
records of the entries it has placed stay in `log_slot_map`.
-/

/-- The slot counts of the commands placed in front of the failing call. -/
def Server.placedCommands
    (server : Server)
    (commands : List (List UInt8)) :
    List Nat :=
  (slotNeeds commands).take
    (server.freshRun.placedCount server.ring.tailLogIndex
      (slotNeeds commands))

namespace RunView

/-- Set the tail index. -/
def withTail
    (view : RunView)
    (tail : Nat) :
    RunView :=
  { view with ring := view.ring.withTail tail }

theorem place_withTail
    (view : RunView)
    (tail logIdx needed : Nat) :
    (view.withTail tail).place logIdx needed =
      (view.place logIdx needed).withTail tail := by
  have flushed :
      (view.withTail tail).flush = view.flush.withTail tail := by
    unfold flush withTail
    dsimp only
    split <;> rfl
  have ends :
      (view.withTail tail).endsRun needed = view.endsRun needed :=
    rfl
  unfold place
  rw [ends]
  split
  · rw [flushed]
    rfl
  · rfl

/-- The flushes do not go by the tail index. -/
theorem placedCount_withTail
    (tail : Nat)
    (needs : List Nat) :
    ∀ (view : RunView) (logIdx : Nat),
      (view.withTail tail).placedCount logIdx needs =
        view.placedCount logIdx needs := by
  induction needs with
  | nil =>
      intro view logIdx
      rfl
  | cons needed rest inductionHypothesis =>
      intro view logIdx
      rw [placedCount, placedCount, place_withTail, inductionHypothesis]
      rfl

end RunView

/-- Entries are placed without a look at the tail index. -/
theorem RingView.placeAll_withTail
    (tail : Nat)
    (needs : List Nat) :
    ∀ (view : RingView) (logIdx : Nat),
      (view.withTail tail).placeAll logIdx needs =
        (view.placeAll logIdx needs).withTail tail := by
  induction needs with
  | nil =>
      intro view logIdx
      rfl
  | cons needed rest inductionHypothesis =>
      intro view logIdx
      exact inductionHypothesis (view.place logIdx needed) (logIdx + 1)

section

variable {server : Server} {commands : List (List UInt8)}
variable (leader : server.raft.state = .leader)
variable (tiled : Tiles 0 server.io.extents)
variable (sentinel : 0 < server.raft.log.length)

include leader tiled sentinel

/--
A batch that is replicated has been placed.  The rollback of one that failed
restores the log and the tail index, not the slots.
-/
theorem applyCommands_ends
    (sink : Nat) :
    wp (applyCommands sink commands)
      (fun outcome final =>
        (outcome = .replicating →
          final.ringView =
            (server.ringView.placeAll server.ring.tailLogIndex
              (slotNeeds commands)).withTail
                (server.ring.tailLogIndex + commands.length)) ∧
          ∀ exn, outcome = .persistFailed exn →
            final.entryView = server.entryView ∧
              final.ringView =
                server.ringView.placeAll server.ring.tailLogIndex
                  (server.placedCommands commands))
      (fun _ _ => False) server := by
  obtain ⟨ring, io⟩ := appendCommands_ringView sink commands server
  have pushed := appendCommands_entryView sink commands server
  have role :
      (server.appendCommands sink commands).raft.state = .leader :=
    (congrArg EntryView.role pushed).trans leader
  have fresh :
      (server.appendCommands sink commands).freshRun =
        server.freshRun.withTail
          (server.ring.tailLogIndex + commands.length) := by
    simp only [Server.freshRun, Server.runView, RunView.withTail, ring, io,
      role, leader]
  have placed :
      (server.appendCommands sink commands).placedNeeds commands.length =
        server.placedCommands commands := by
    rw [Server.placedNeeds, appendCommands_lastNeeds sentinel,
      appendCommands_firstPersisted sentinel, fresh,
      RunView.placedCount_withTail]
    rfl
  simp only [applyCommands, wp_bind, wp_get, wp_ite, wp_pure, wp_modify,
    wp_tryCatch]
  split_ifs with empty follower full
  · exact ⟨fun never => never.elim, fun _ never => never.elim⟩
  · exact ⟨fun never => never.elim, fun _ never => never.elim⟩
  · exact ⟨fun never => never.elim, fun _ never => never.elim⟩
  · have some : commands ≠ [] := by simpa using empty
    refine wp_mono (wp_and
      (persistCircular_ends (io ▸ tiled) (List.length_pos_of_ne_nil some))
      ((persistCircular_entryView _ _).ends _)) ?_ ?_
    · rintro _ final ⟨⟨whole, ends⟩, -⟩
      refine ⟨fun _ => ?_, fun _ never => never.elim⟩
      rw [whole, appendCommands_lastNeeds sentinel,
        appendCommands_firstPersisted sentinel, fresh,
        RunView.placeAll_ring _ _ _ leader] at ends
      exact ends.trans (RingView.placeAll_withTail _ _ _ _)
    · rintro _ final ⟨ends, same⟩
      refine ⟨fun never => never.elim, fun exn _ => ?_⟩
      have undone := popEntries_entryView sentinel
        (clientEntries server.raft.currentTerm sink commands) final
        (same.trans pushed)
      rw [clientEntries, List.length_map] at undone
      refine ⟨undone, ?_⟩
      rw [placed, appendCommands_firstPersisted sentinel, fresh,
        RunView.placeAll_ring _ _ _ leader] at ends
      have placedRing :
          final.ringView =
            (server.ringView.placeAll server.ring.tailLogIndex
              (server.placedCommands commands)).withTail
                (server.ring.tailLogIndex + commands.length) :=
        ends.trans (RingView.placeAll_withTail _ _ _ _)
      obtain ⟨log, tail, popped⟩ := popEntries_only commands.length final
      rw [popped] at undone ⊢
      have sameTail : tail = server.ring.tailLogIndex :=
        congrArg EntryView.tail undone
      have moved := congrArg (·.withTail tail) placedRing
      refine moved.trans ?_
      have restored :
          tail =
            (server.ringView.placeAll server.ring.tailLogIndex
              (server.placedCommands commands)).tail :=
        sameTail.trans
          (RingView.placeAll_tail (server.placedCommands commands)
            server.ringView server.ring.tailLogIndex).symm
      rw [restored]
      rfl

end

/-- The log, the tail index, the tail slot and the records are as before. -/
structure Server.RolledBack (before after : Server) : Prop where
  log : after.raft.log = before.raft.log
  tailLogIndex : after.ring.tailLogIndex = before.ring.tailLogIndex
  tailSlot : after.ring.tailSlot = before.ring.tailSlot
  logSlotMap :
    ∀ logIdx,
      after.ring.logSlotMap.lookup logIdx =
        before.ring.logSlotMap.lookup logIdx

/--
The allocator comes round to the tail slot again, over slots that
`log_slot_map` has for the very same indices already.
-/
def Server.placesNothingNew
    (server : Server)
    (needs : List Nat) :
    Bool :=
  let starts :=
    startSlots server.ring.ringSlots server.io.extents server.ring.tailSlot
      needs
  decide
      (endSlot server.ring.ringSlots server.io.extents server.ring.tailSlot
        needs = server.ring.tailSlot) &&
    (List.range needs.length).all fun position =>
      decide
        (server.ring.logSlotMap.lookup (server.ring.tailLogIndex + position) =
          some {
            start := starts.getD position 0
            numSlots := needs.getD position 0
            state := .using })

/-- The tail slot stays exactly when no slot would be placed. -/
theorem placesNothingNew_iff
    (server : Server)
    (needs : List Nat) :
    server.placesNothingNew needs = true ↔
      (server.ringView.placeAll server.ring.tailLogIndex needs).tailSlot =
          server.ring.tailSlot ∧
        ∀ logIdx,
          (server.ringView.placeAll server.ring.tailLogIndex
              needs).slots.lookup logIdx =
            server.ring.logSlotMap.lookup logIdx := by
  rw [Server.placesNothingNew, Bool.and_eq_true, decide_eq_true_iff,
    RingView.placeAll_tailSlot]
  refine and_congr Iff.rfl ?_
  simp only [List.all_eq_true, List.mem_range, decide_eq_true_iff]
  constructor
  · intro recorded logIdx
    rcases Nat.lt_or_ge logIdx server.ring.tailLogIndex with before | behind
    · exact RingView.placeAll_lookup_before needs server.ringView before
    · obtain ⟨position, rfl⟩ := Nat.exists_eq_add_of_le behind
      rw [RingView.placeAll_lookup]
      cases found : needs[position]? with
      | none =>
          rfl
      | some needed =>
          have known := recorded position (List.getElem?_eq_some_iff.mp found).1
          have same : needs.getD position 0 = needed := by
            rw [List.getD_eq_getElem?_getD, found]
            rfl
          rw [same] at known
          exact known.symm
  · intro same position inside
    have known := same (server.ring.tailLogIndex + position)
    rw [RingView.placeAll_lookup, List.getElem?_eq_getElem inside] at known
    have same : needs.getD position 0 = needs[position] := by
      rw [List.getD_eq_getElem?_getD, List.getElem?_eq_getElem inside]
      rfl
    rw [same]
    exact known.symm

section

variable {server after : Server} {commands : List (List UInt8)}
variable {sink : Nat} {exn : Exn}

/--
A persist that fails leaves the leader as it was exactly when the commands
placed in front of the failing call lead the allocator round to the tail slot,
over slots that `log_slot_map` has for the same indices already: over every
leader, every batch and every point at which a write or the sync fails.
-/
theorem failed_persist_rolledBack_iff
    (leader : server.raft.state = .leader)
    (tiled : Tiles 0 server.io.extents)
    (sentinel : 0 < server.raft.log.length)
    (ran :
      (applyCommands sink commands).run server =
        .ok (.persistFailed exn) after) :
    server.RolledBack after ↔
      server.placesNothingNew (server.placedCommands commands) = true := by
  have ends := @applyCommands_ends server commands leader tiled sentinel sink
  unfold wp at ends
  rw [ran] at ends
  obtain ⟨entries, ring⟩ := ends.2 exn rfl
  have slots :
      after.ring.logSlotMap =
        (server.ringView.placeAll server.ring.tailLogIndex
          (server.placedCommands commands)).slots :=
    congrArg RingView.slots ring
  have tailSlot :
      after.ring.tailSlot =
        (server.ringView.placeAll server.ring.tailLogIndex
          (server.placedCommands commands)).tailSlot :=
    congrArg RingView.tailSlot ring
  rw [placesNothingNew_iff, ← slots, ← tailSlot]
  constructor
  · intro restored
    exact ⟨restored.tailSlot, restored.logSlotMap⟩
  · rintro ⟨sameSlot, sameRecords⟩
    exact {
      log := congrArg EntryView.log entries
      tailLogIndex := congrArg EntryView.tail entries
      tailSlot := sameSlot
      logSlotMap := sameRecords }

end

/-- The batch is answered with the failure of its persist. -/
def Server.failsToPersist
    (server : Server)
    (commands : List (List UInt8)) :
    Bool :=
  match (applyCommands 0 commands).run server with
  | .ok (.persistFailed _) _ => true
  | _ => false

/-- A run of Lock A whose persist call throws. -/
theorem Server.failsToPersist_run
    {server : Server}
    {commands : List (List UInt8)}
    (fails : server.failsToPersist commands = true) :
    ∃ exn after,
      (applyCommands 0 commands).run server =
        .ok (.persistFailed exn) after := by
  unfold failsToPersist at fails
  split at fails
  · rename_i exn after ran
    exact ⟨exn, after, ran⟩
  · cases fails

/-- A leader on a ring of fifteen slots whose next sync fails. -/
def failingLeader
    (tailSlot : Nat)
    (logSlotMap : SlotMap) :
    Server where
  raft := {
    currentTerm := 1
    id := 1
    log := [{}, { term := 1 }]
    state := .leader
    cluster := [{ id := 1 }, { id := 2 }, { id := 3 }]
    clusterIndex := 0 }
  ring := { RingLog.configure {} 2 with
    tailLogIndex := 2
    tailSlot
    headSlot := tailSlot
    logSlotMap
    persistedInit := true
    persistedTerm := 1 }
  io := {
    extents := [{ logical := 0, physical := 4096, length := 8192 }]
    outcomes := { syncs := [false] } }

/-- The records that a failed batch of fifteen slots has left. -/
def leftRecords : SlotMap :=
  (List.range 15).foldl
    (fun slots slot =>
      slots.insert (2 + slot)
        { start := slot, numSlots := 1, state := .using })
    ∅

/-- Only the repetition of a batch that fills the ring leaves nothing new. -/
theorem repeated_failure_rolledBack :
    ∃ exn after,
      (applyCommands 0 (List.replicate 15 [])).run
          (failingLeader 15 leftRecords) =
        .ok (.persistFailed exn) after ∧
      (failingLeader 15 leftRecords).RolledBack after := by
  have fails :
      (failingLeader 15 leftRecords).failsToPersist
        (List.replicate 15 []) = true := by
    decide +kernel
  obtain ⟨exn, after, ran⟩ := Server.failsToPersist_run fails
  exact ⟨exn, after, ran,
    (failed_persist_rolledBack_iff rfl (by decide) (by decide) ran).mpr
      (by decide +kernel)⟩

/-- The first failed command keeps its slot and its record. -/
theorem failed_command_keeps_its_slot :
    ∃ exn after,
      (applyCommands 0 [[]]).run (failingLeader 0 ∅) =
          .ok (.persistFailed exn) after ∧
        after.ring.tailSlot = 1 ∧
          after.ring.logSlotMap.lookup 2 =
              some { start := 0, numSlots := 1, state := .using } ∧
            ¬ (failingLeader 0 ∅).RolledBack after := by
  have fails : (failingLeader 0 ∅).failsToPersist [[]] = true := by
    decide +kernel
  obtain ⟨exn, after, ran⟩ := Server.failsToPersist_run fails
  have ends := @applyCommands_ends (failingLeader 0 ∅) [[]] rfl
    (by decide) (by decide) 0
  unfold wp at ends
  rw [ran] at ends
  obtain ⟨-, ring⟩ := ends.2 exn rfl
  have tailSlot : after.ring.tailSlot = 1 :=
    (congrArg RingView.tailSlot ring).trans (by decide +kernel)
  refine ⟨exn, after, ran, tailSlot, ?_, fun restored => ?_⟩
  · have record :
        ((failingLeader 0 ∅).ringView.placeAll 2
            ((failingLeader 0 ∅).placedCommands [[]])).slots.lookup 2 =
          some { start := 0, numSlots := 1, state := .using } := by
      decide +kernel
    exact (congrArg (fun view => view.slots.lookup 2) ring).trans record
  · have same := restored.tailSlot
    rw [tailSlot] at same
    cases same

end NvmeofRaft
