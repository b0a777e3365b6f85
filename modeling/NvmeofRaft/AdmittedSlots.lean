import NvmeofRaft.CopyFootprint
import NvmeofRaft.FailedPersist

namespace NvmeofRaft

/-!
# Admission and allocation

`can_write_all` walks over the slots that the commands will take and checks
them against `head_slot`.  The walk wraps at the ring end as the allocator of
`persist_circular` does, but it does not skip to the next extent.
-/

/-- Where the loop puts each command, and whether it has wrapped by then. -/
def admissionWalk
    (ringSlots : Nat) :
    Nat → Bool → List Nat → List (Nat × Bool)
  | _, _, [] =>
      []
  | slot, wrapped, needed :: rest =>
      let start := wrapSlot ringSlots slot needed
      let wrapped := wrapped || decide (slot + needed > ringSlots)
      (start, wrapped) ::
        admissionWalk ringSlots (start + needed) wrapped rest

/-- The start slots that the loop of `can_write_all` simulates. -/
def simulatedSlots
    (ringSlots slot : Nat)
    (needs : List Nat) :
    List Nat :=
  (admissionWalk ringSlots slot false needs).map Prod.fst

/-- The check of one simulated range. -/
def clearOfHead
    (headSlot : Nat)
    (range : (Nat × Bool) × Nat) :
    Bool :=
  !(range.1.2 && decide (range.1.1 + range.2 > headSlot))

theorem refused_or
    (refuses later : Bool) :
    (if refuses = true then false else later) = (!refuses && later) := by
  cases refuses <;> rfl

/-- The loop checks the simulated ranges and nothing else. -/
theorem canWriteLoop_eq
    (ringSlots headSlot : Nat)
    (commands : List (List UInt8)) :
    ∀ slot wrapped,
      canWriteLoop ringSlots headSlot slot wrapped commands =
        ((admissionWalk ringSlots slot wrapped (slotNeeds commands)).zip
          (slotNeeds commands)).all (clearOfHead headSlot) := by
  induction commands with
  | nil =>
      intro slot wrapped
      rfl
  | cons command rest inductionHypothesis =>
      intro slot wrapped
      have needs :
          slotNeeds (command :: rest) =
            slotsForEntry command.length :: slotNeeds rest :=
        rfl
      rw [needs, admissionWalk, canWriteLoop, List.zip_cons_cons,
        List.all_cons, clearOfHead]
      simp only [wrapSlot, gt_iff_lt, decide_eq_true_eq, inductionHypothesis]
      rw [refused_or]

/-- The walk passes over the same slots whether it has wrapped or not. -/
theorem admissionWalk_starts
    (ringSlots : Nat)
    (needs : List Nat) :
    ∀ slot wrapped,
      (admissionWalk ringSlots slot wrapped needs).map Prod.fst =
        simulatedSlots ringSlots slot needs := by
  induction needs with
  | nil =>
      intro slot wrapped
      rfl
  | cons needed rest inductionHypothesis =>
      intro slot wrapped
      rw [simulatedSlots, admissionWalk, admissionWalk, List.map_cons,
        List.map_cons, inductionHypothesis, inductionHypothesis]

/-- The simulation wraps one entry and goes on behind it. -/
theorem simulatedSlots_cons
    (ringSlots slot needed : Nat)
    (rest : List Nat) :
    simulatedSlots ringSlots slot (needed :: rest) =
      wrapSlot ringSlots slot needed ::
        simulatedSlots ringSlots (wrapSlot ringSlots slot needed + needed)
          rest := by
  rw [simulatedSlots, admissionWalk, List.map_cons, admissionWalk_starts]

theorem simulatedSlots_length
    (ringSlots : Nat)
    (needs : List Nat) :
    ∀ slot, (simulatedSlots ringSlots slot needs).length = needs.length := by
  induction needs with
  | nil =>
      intro slot
      rfl
  | cons needed rest inductionHypothesis =>
      intro slot
      rw [simulatedSlots_cons, List.length_cons, List.length_cons,
        inductionHypothesis]

/-- Lists of one length that agree at every position. -/
theorem same_of_getD
    {first second : List Nat}
    (length : first.length = second.length)
    (same :
      ∀ position < first.length,
        first.getD position 0 = second.getD position 0) :
    first = second := by
  refine List.ext_getElem length fun position inside inside' => ?_
  have agree := same position inside
  rw [List.getD_eq_getElem?_getD, List.getD_eq_getElem?_getD,
    List.getElem?_eq_getElem inside, List.getElem?_eq_getElem inside'] at agree
  exact agree

/-- Along the simulated ranges the extent skip leaves every slot alone. -/
def skipsNothing
    (ringSlots : Nat)
    (extents : List Extent) :
    Nat → List Nat → Bool
  | _, [] =>
      true
  | slot, needed :: rest =>
      let start := wrapSlot ringSlots slot needed
      decide (skipSlot ringSlots extents start needed = start) &&
        skipsNothing ringSlots extents (start + needed) rest

/-- The two walks are the same exactly when nothing is skipped. -/
theorem startSlots_eq_simulatedSlots
    {ringSlots : Nat}
    {extents : List Extent}
    (needs : List Nat) :
    ∀ slot,
      startSlots ringSlots extents slot needs =
          simulatedSlots ringSlots slot needs ↔
        skipsNothing ringSlots extents slot needs = true := by
  induction needs with
  | nil =>
      intro slot
      exact ⟨fun _ => rfl, fun _ => rfl⟩
  | cons needed rest inductionHypothesis =>
      intro slot
      rw [startSlots, simulatedSlots_cons, skipsNothing, Bool.and_eq_true,
        decide_eq_true_iff, List.cons.injEq, nextSlot]
      constructor
      · rintro ⟨stays, later⟩
        rw [stays] at later
        exact ⟨stays, (inductionHypothesis _).mp later⟩
      · rintro ⟨stays, later⟩
        rw [stays]
        exact ⟨rfl, (inductionHypothesis _).mpr later⟩

/-- A file in one extent is never skipped. -/
theorem skipsNothing_of_contiguous
    {ringSlots : Nat}
    {extents : List Extent}
    (contiguous : extents.length ≤ 1)
    (needs : List Nat) :
    ∀ slot, skipsNothing ringSlots extents slot needs = true := by
  induction needs with
  | nil =>
      intro slot
      rfl
  | cons needed rest inductionHypothesis =>
      intro slot
      rw [skipsNothing, inductionHypothesis, Bool.and_true, skipSlot,
        if_pos contiguous]
      exact decide_eq_true rfl

/-- The slot counts of the commands that an attempt has placed. -/
def Server.assignedNeeds
    (server : Server)
    (commands : List (List UInt8)) :
    ApplyOutcome → List Nat
  | .replicating => slotNeeds commands
  | .persistFailed _ => server.placedCommands commands
  | _ => []

/-- The commands have the slots that the admission test has simulated. -/
def Server.AssignsSimulated
    (before : Server)
    (commands : List (List UInt8))
    (outcome : ApplyOutcome)
    (after : Server) : Prop :=
  ∀ position needed,
    (before.assignedNeeds commands outcome)[position]? = some needed →
    after.ring.logSlotMap.lookup (before.ring.tailLogIndex + position) =
      some {
        start :=
          (simulatedSlots before.ring.ringSlots before.ring.tailSlot
            (slotNeeds commands)).getD position 0
        numSlots := needed
        state := .using }

section

variable {server : Server} {commands : List (List UInt8)}
variable (leader : server.raft.state = .leader)
variable (tiled : Tiles 0 server.io.extents)
variable (sentinel : 0 < server.raft.log.length)
variable (admitted : canWriteAll server.ring commands = true)

include leader tiled sentinel admitted

/-- The records of the commands that an attempt has placed. -/
theorem applyCommands_assigns
    (sink : Nat) :
    wp (applyCommands sink commands)
      (fun outcome final =>
        (commands ≠ [] →
          outcome = .replicating ∨ ∃ exn, outcome = .persistFailed exn) ∧
          ∀ position needed,
            (server.assignedNeeds commands outcome)[position]? =
                some needed →
            final.ring.logSlotMap.lookup
                (server.ring.tailLogIndex + position) =
              some {
                start :=
                  (startSlots server.ring.ringSlots server.io.extents
                    server.ring.tailSlot (slotNeeds commands)).getD position 0
                numSlots := needed
                state := .using })
      (fun _ _ => False) server := by
  have attempts :
      wp (applyCommands sink commands)
        (fun outcome _ =>
          commands ≠ [] →
          outcome = .replicating ∨ ∃ exn, outcome = .persistFailed exn)
        (fun _ _ => True) server := by
    simp only [applyCommands, wp_bind, wp_get, wp_ite, wp_pure, wp_modify,
      wp_tryCatch]
    split_ifs with empty follower full
    · intro some
      exact absurd (by simpa using empty) some
    · exact absurd leader follower
    · rw [admitted] at full
      cases full
    · refine wp_mono ((persistCircular_entryView _ _).ends _) ?_ ?_
      · exact fun _ _ _ _ => Or.inl trivial
      · exact fun exn _ _ _ => Or.inr ⟨exn, rfl⟩
  refine wp_mono (wp_and attempts
    (applyCommands_ends leader tiled sentinel sink)) ?_ fun _ _ ends => ends.2
  rintro outcome final ⟨attempted, placed, failed⟩
  refine ⟨attempted, ?_⟩
  intro position needed found
  cases outcome with
  | replicating =>
      have all : (slotNeeds commands).take (slotNeeds commands).length =
          slotNeeds commands :=
        List.take_length
      have known : ((slotNeeds commands).take
          (slotNeeds commands).length)[position]? = some needed := by
        rw [all]
        exact found
      have record :=
        server.ringView.placeAll_take_lookup server.ring.tailLogIndex known
      rw [all] at record
      exact (congrArg (fun view : RingView =>
        view.slots.lookup (server.ring.tailLogIndex + position))
          (placed rfl)).trans record
  | persistFailed exn =>
      exact (congrArg (fun view : RingView =>
        view.slots.lookup (server.ring.tailLogIndex + position))
          (failed exn rfl).2).trans
            (server.ringView.placeAll_take_lookup _ found)
  | emptyRequest =>
      cases found
  | notLeader =>
      cases found
  | ringFull =>
      cases found

/-- An admitted batch whose persist does not fail is replicated. -/
theorem replicates_of_persists
    (some : commands ≠ [])
    (persists : server.failsToPersist commands = false) :
    ∃ after,
      (applyCommands 0 commands).run server = .ok .replicating after := by
  have ends := applyCommands_assigns leader tiled sentinel admitted 0
  unfold wp at ends
  split at ends
  · rename_i outcome after ran
    rcases ends.1 some with rfl | ⟨exn, rfl⟩
    · exact ⟨after, ran⟩
    · unfold Server.failsToPersist at persists
      rw [ran] at persists
      cases persists
  · exact ends.elim

/--
Admission agrees with allocation exactly when the extent skip leaves alone
every slot at which the test has put a command: over every leader, every
batch it admits and every outcome of the I/O.
-/
theorem admission_agrees_iff :
    (∀ outcomes sink,
      wp (applyCommands sink commands)
        (fun outcome after =>
          (server.withOutcomes outcomes).AssignsSimulated commands outcome
            after)
        (fun _ _ => False) (server.withOutcomes outcomes)) ↔
      skipsNothing server.ring.ringSlots server.io.extents
        server.ring.tailSlot (slotNeeds commands) = true := by
  constructor
  · intro agrees
    by_cases some : commands = []
    · rw [some]
      rfl
    · have assigns :=
        @applyCommands_assigns (server.withOutcomes {}) commands leader tiled
          sentinel admitted 0
      have ends := wp_and assigns (agrees {} 0)
      unfold wp at ends
      split at ends
      · rename_i outcome after ran
        obtain ⟨⟨attempted, assigned⟩, simulated⟩ := ends
        have whole :
            (server.withOutcomes {}).assignedNeeds commands outcome =
              slotNeeds commands := by
          rcases attempted some with rfl | ⟨exn, rfl⟩
          · rfl
          · refine List.take_of_length_le (Nat.le_of_eq ?_)
            exact (RunView.placedCount_of_done _ _ rfl).symm
        rw [Server.AssignsSimulated, whole] at simulated
        rw [whole] at assigned
        refine (startSlots_eq_simulatedSlots _ _).mp
          (same_of_getD ?_ fun position inside => ?_)
        · rw [startSlots_length, simulatedSlots_length]
        · rw [startSlots_length] at inside
          have found := List.getElem?_eq_getElem inside
          have record := (assigned position _ found).symm.trans
            (simulated position _ found)
          exact congrArg SlotRecord.start (Option.some.inj record)
      · exact ends.1.elim
  · intro nothing outcomes sink
    refine wp_mono (@applyCommands_assigns (server.withOutcomes outcomes)
      commands leader tiled sentinel admitted sink) ?_ fun _ _ never => never
    rintro outcome after ⟨-, assigned⟩ position needed found
    have same :
        startSlots (server.withOutcomes outcomes).ring.ringSlots
            (server.withOutcomes outcomes).io.extents
            (server.withOutcomes outcomes).ring.tailSlot
            (slotNeeds commands) =
          simulatedSlots (server.withOutcomes outcomes).ring.ringSlots
            (server.withOutcomes outcomes).ring.tailSlot
            (slotNeeds commands) :=
      (startSlots_eq_simulatedSlots _ _).mpr nothing
    rw [assigned position needed found, same]

end

/-- A leader whose tail slot has come round to the last entry in the ring. -/
def roundLeader (extents : List Extent) : Server where
  raft := {
    currentTerm := 1
    id := 1
    log := [{}, { term := 1 }]
    state := .leader
    cluster := [{ id := 1 }, { id := 2 }, { id := 3 }]
    clusterIndex := 0 }
  ring := { RingLog.configure {} 2 with
    tailLogIndex := 2
    tailSlot := 6
    headSlot := 8
    logSlotMap :=
      AList.insert 1 { start := 8, numSlots := 1, state := .using } ∅
    persistedInit := true
    persistedTerm := 1 }
  io := { extents }

/-- A command of two slots. -/
def twoSlots : List UInt8 :=
  List.replicate 481 0

/-- A ring file in one extent. -/
def wholeFile : List Extent :=
  [{ logical := 0, physical := 4096, length := 8192 }]

/-- On a ring file in one extent the command gets the slots of the test. -/
theorem contiguous_admission_agrees :
    canWriteAll (roundLeader wholeFile).ring [twoSlots] = true ∧
      ∀ outcomes sink,
        wp (applyCommands sink [twoSlots])
          (fun outcome after =>
            ((roundLeader wholeFile).withOutcomes outcomes).AssignsSimulated
              [twoSlots] outcome after)
          (fun _ _ => False)
          ((roundLeader wholeFile).withOutcomes outcomes) := by
  have admitted :
      canWriteAll (roundLeader wholeFile).ring [twoSlots] = true := by
    decide +kernel
  refine ⟨admitted, ?_⟩
  rw [@admission_agrees_iff (roundLeader wholeFile) [twoSlots] rfl
    (by decide) (by decide) admitted]
  exact skipsNothing_of_contiguous (by decide) (slotNeeds [twoSlots]) 6

/--
The test has checked slots 6 and 7 against the head; the command gets slots 7
and 8, and slot 8 is the one of the entry at index 1.
-/
theorem admitted_command_overwrites :
    canWriteAll (roundLeader splitLayout.extents).ring [twoSlots] = true ∧
      simulatedSlots 15 6 (slotNeeds [twoSlots]) = [6] ∧
        ∃ after,
          (applyCommands 0 [twoSlots]).run
              (roundLeader splitLayout.extents) =
            .ok .replicating after ∧
          after.ring.logSlotMap.lookup 2 =
              some { start := 7, numSlots := 2, state := .using } ∧
            after.ring.logSlotMap.lookup 1 =
                some { start := 8, numSlots := 1, state := .using } ∧
              ¬ (roundLeader splitLayout.extents).AssignsSimulated [twoSlots]
                  .replicating after := by
  have admitted :
      canWriteAll (roundLeader splitLayout.extents).ring [twoSlots] = true := by
    decide +kernel
  have needs : slotNeeds [twoSlots] = [2] := by decide +kernel
  obtain ⟨after, ran⟩ :=
    @replicates_of_persists (roundLeader splitLayout.extents) [twoSlots] rfl
      (by decide) (by decide) admitted (by decide) (by decide +kernel)
  have new :
      (finalState ((applyCommands 0 [twoSlots]).run
          (roundLeader splitLayout.extents))).ring.logSlotMap.lookup 2 =
        some { start := 7, numSlots := 2, state := .using } := by
    decide +kernel
  have old :
      (finalState ((applyCommands 0 [twoSlots]).run
          (roundLeader splitLayout.extents))).ring.logSlotMap.lookup 1 =
        some { start := 8, numSlots := 1, state := .using } := by
    decide +kernel
  rw [ran, finalState_ok] at new old
  refine ⟨admitted, by decide +kernel, after, ran, new, old,
    fun simulated => ?_⟩
  have record := simulated 0 2 (by
    show (slotNeeds [twoSlots])[0]? = some 2
    rw [needs]
    rfl)
  rw [needs] at record
  have start : (7 : Nat) = 6 :=
    congrArg SlotRecord.start (Option.some.inj (new.symm.trans record))
  cases start

end NvmeofRaft
