import NvmeofRaft.CommitSignal
import NvmeofRaft.EntryReadBack

namespace NvmeofRaft

/-!
# Promotion of a follower

A follower keeps its entries without their commands: `become_leader` loads them
from the ring slots and passes those up to `commit_index` on.  Slot 0 is also
the mark of an entry that has its command, so an entry there is not loaded.
-/

/-- The commands that an apply loop passes on: the empty ones are left out. -/
def nonEmptyCommands (commands : List (List UInt8)) : List (List UInt8) :=
  commands.filter fun command => !command.isEmpty

/--
The non-empty commands of the indices from `first` up to `last`, in a log whose
first command has the index one.
-/
def commandsBetween
    (commands : List (List UInt8))
    (first last : Nat) :
    List (List UInt8) :=
  nonEmptyCommands ((commands.drop (first - 1)).take (last + 1 - first))

/-- The command that a follower can load: none at slot 0. -/
def loadedCommand (item : Entry × Nat) : List UInt8 :=
  if item.2 = 0 then [] else item.1.command

/-- One turn of the apply loop. -/
theorem applyLoaded_step
    {oldest bound : Nat}
    {server : Server}
    (allowed : server.canApply oldest = true) :
    ∃ next : Server,
      applyLoaded oldest (bound + 1) server =
          applyLoaded oldest bound next ∧
        next.raft.lastApplied = server.raft.lastApplied + 1 ∧
        next.raft.commitIndex = server.raft.commitIndex ∧
        next.ring = server.ring ∧
        next.logAt = server.logAt ∧
        next.statemachine =
          server.statemachine ++
            nonEmptyCommands
              [(server.logAt server.raft.lastApplied).command] := by
  refine ⟨{ server with
    raft := { server.raft with
      lastApplied := server.raft.lastApplied + 1 }
    statemachine :=
      if (server.logAt server.raft.lastApplied).command.isEmpty then
        server.statemachine
      else
        server.statemachine ++
          [(server.logAt server.raft.lastApplied).command] },
    by rw [applyLoaded, if_pos allowed], rfl, rfl, rfl, rfl, ?_⟩
  cases empty :
      (server.logAt server.raft.lastApplied).command.isEmpty with
  | true =>
      simp [nonEmptyCommands, empty]
  | false =>
      simp [nonEmptyCommands, empty]

/-- The loop passes on what the log holds up to the commit index. -/
theorem applyLoaded_statemachine
    (oldest : Nat) :
    ∀ (bound : Nat) (server : Server),
      oldest ≤ server.raft.lastApplied →
      server.raft.commitIndex < server.ring.tailLogIndex →
      server.raft.commitIndex + 1 - server.raft.lastApplied ≤ bound →
      (applyLoaded oldest bound server).statemachine =
        server.statemachine ++
          nonEmptyCommands
            ((List.range' server.raft.lastApplied
              (server.raft.commitIndex + 1 - server.raft.lastApplied)).map
                fun logIdx => (server.logAt logIdx).command) := by
  intro bound
  induction bound with
  | zero =>
      intro server _ _ enough
      rw [Nat.le_zero.mp enough]
      exact (List.append_nil _).symm
  | succ bound inductionHypothesis =>
      intro server inMemory below enough
      by_cases more : server.raft.lastApplied ≤ server.raft.commitIndex
      · have allowed : server.canApply oldest = true := by
          simp only [Server.canApply, Bool.and_eq_true, decide_eq_true_eq]
          omega
        obtain ⟨next, turn, applied, commit, ring, logAt, passed⟩ :=
          @applyLoaded_step _ bound _ allowed
        have rest := inductionHypothesis next (by omega)
          (by rw [commit, ring]; exact below) (by omega)
        have count :
            server.raft.commitIndex + 1 - server.raft.lastApplied =
              (server.raft.commitIndex + 1 -
                (server.raft.lastApplied + 1)) + 1 := by
          omega
        rw [turn, rest, passed, applied, commit, logAt, count,
          List.range'_succ, List.map_cons, List.append_assoc]
        congr 1
        exact (List.filter_append ..).symm
      · have stops : server.canApply oldest = false := by
          simp only [Server.canApply, Bool.and_eq_false_iff,
            decide_eq_false_iff_not]
          exact Or.inr more
        have none :
            server.raft.commitIndex + 1 - server.raft.lastApplied = 0 := by
          omega
        rw [applyLoaded, stops, none]
        exact (List.append_nil _).symm

/--
The entry that a follower holds for one placed by the leader: the slot and the
term of that one, and the length of its command, unless the leader had
released the command when it sent the entry.
-/
structure Entry.Defers
    (held entry : Entry)
    (start : Nat) : Prop where
  command : held.command = []
  ringSlot : held.ringSlot = start
  term : held.term = entry.term
  cmdLen : held.cmdLen = entry.command.length ∨ held.cmdLen = 0

/--
The log is the sentinel and one entry without command for each of the first
placed entries, at the slot where the leader has placed it; nothing has been
applied.
-/
structure EntryView.Defers
    (view : EntryView)
    (placed : List (Entry × Nat)) : Prop where
  length : view.log.length = view.tail
  started : 0 < view.tail
  upTo : view.tail ≤ placed.length + 1
  deferred :
    ∀ position entry start,
      placed[position]? = some (entry, start) →
      position + 1 < view.tail →
      ∃ held,
        view.log[position + 1]? = some held ∧ held.Defers entry start
  applied : view.applied = 1
  committed : view.commit < view.tail

section

variable {server : Server} {placed : List (Entry × Nat)}
variable {load : Nat → Option (List UInt8)}

/-- A log that starts at index one is indexed by its positions. -/
theorem logAt_of_full
    (small : server.ring.tailLogIndex < 2 ^ 64)
    (length : server.raft.log.length = server.ring.tailLogIndex)
    {logIdx : Nat}
    (first : 0 < logIdx)
    (inLog : logIdx < server.ring.tailLogIndex) :
    server.logAt logIdx = server.raft.log.getD logIdx {} := by
  have slice : server.logSlice logIdx = logIdx := by
    unfold Server.logSlice Server.oldestLogIndex
    rw [length, sub64_of_le (show _ ≤ logIdx + 1 by
      rw [sub64_of_le (Nat.sub_le _ _)]
      omega), sub64_of_le (Nat.sub_le _ _)]
    omega
  rw [Server.logAt, slice]

/-- The command of a deferred entry once it is loaded. -/
theorem loadDeferred_command
    {entry : Entry}
    {command : List UInt8}
    (empty : entry.command = [])
    (atZero : entry.ringSlot = 0 → command = [])
    (reads : entry.ringSlot ≠ 0 → load entry.ringSlot = some command) :
    (loadDeferred load entry).command = command := by
  unfold loadDeferred
  by_cases zero : entry.ringSlot = 0
  · rw [if_neg fun deferred => deferred.2 zero, empty, atZero zero]
  · rw [if_pos ⟨by rw [empty]; rfl, zero⟩, reads zero]

/--
Promotion applies what it loads: when the slots of the committed entries are
read back as they were placed, the commands up to the commit index are passed
on, those at slot 0 aside.
-/
theorem EntryView.Defers.promote_applies
    (defers : server.entryView.Defers placed)
    (small : server.ring.tailLogIndex < 2 ^ 64)
    (reads :
      ∀ position entry start,
        placed[position]? = some (entry, start) →
        position < server.raft.commitIndex →
        start ≠ 0 →
        load start = some entry.command) :
    (server.promote load).statemachine =
      server.statemachine ++
        commandsBetween (placed.map loadedCommand) server.raft.lastApplied
          server.raft.commitIndex := by
  obtain ⟨length, started, upTo, deferred, applied, committed⟩ := defers
  change server.raft.log.length = server.ring.tailLogIndex at length
  change 0 < server.ring.tailLogIndex at started
  change server.ring.tailLogIndex ≤ placed.length + 1 at upTo
  change server.raft.lastApplied = 1 at applied
  change server.raft.commitIndex < server.ring.tailLogIndex at committed
  generalize ready : server.takeLead.loadDeferredEntries load = loaded
  have log :
      loaded.raft.log =
        server.raft.log.take 1 ++
          (server.raft.log.drop 1).map (loadDeferred load) := by
    rw [← ready]
    rfl
  have ring : loaded.ring.tailLogIndex = server.ring.tailLogIndex := by
    rw [← ready]
    exact rebuildSlotStatesFromMap_tailLogIndex _
  have commit : loaded.raft.commitIndex = server.raft.commitIndex := by
    rw [← ready]
    rfl
  have nothing : loaded.raft.lastApplied = 1 := by
    rw [← ready]
    exact applied
  have same : loaded.statemachine = server.statemachine := by
    rw [← ready]
    rfl
  have length' : loaded.raft.log.length = loaded.ring.tailLogIndex := by
    rw [ring, ← length, log, List.length_append, List.length_map,
      List.length_take, List.length_drop]
    omega
  have oldest : loaded.oldestLogIndex = 1 := by
    rw [Server.oldestLogIndex, length', ring, sub64_of_le (Nat.sub_le _ _)]
    omega
  have command :
      ∀ position,
        position < server.raft.commitIndex →
        some (loaded.logAt (1 + position)).command =
          (placed.map loadedCommand)[position]? := by
    intro position below
    have inPlaced : position < placed.length := by omega
    obtain ⟨⟨entry, start⟩, found⟩ :
        ∃ item, placed[position]? = some item :=
      ⟨_, List.getElem?_eq_getElem inPlaced⟩
    obtain ⟨held, inLog, ⟨empty, slot, -, -⟩⟩ :=
      deferred position entry start found
        (show position + 1 < server.ring.tailLogIndex by omega)
    change server.raft.log[position + 1]? = some held at inLog
    have front : (server.raft.log.take 1).length = 1 := by
      rw [List.length_take]
      omega
    have inLoaded :
        loaded.raft.log[1 + position]? = some (loadDeferred load held) := by
      rw [log, List.getElem?_append_right (by omega), front,
        List.getElem?_map, List.getElem?_drop, Nat.add_sub_cancel_left,
        Nat.add_comm 1 position, inLog]
      rfl
    rw [logAt_of_full (by omega) length' (by omega) (by omega),
      List.getD_eq_getElem?_getD, inLoaded, List.getElem?_map, found]
    have recalled :
        (loadDeferred load held).command = loadedCommand (entry, start) := by
      unfold loadedCommand
      rw [← slot]
      by_cases zero : held.ringSlot = 0
      · rw [if_pos zero]
        exact loadDeferred_command empty (fun _ => rfl)
          fun other => absurd zero other
      · rw [if_neg zero]
        exact loadDeferred_command empty (fun none => absurd none zero)
          fun _ => slot ▸ reads position entry start found below (slot ▸ zero)
    exact congrArg some recalled
  have passed := applyLoaded_statemachine loaded.oldestLogIndex
    (loaded.ring.tailLogIndex - loaded.raft.lastApplied) loaded
    (by rw [oldest, nothing]) (by rw [commit, ring]; exact committed)
    (by rw [commit, ring, nothing]; omega)
  have promoted :
      (server.promote load).statemachine =
        loaded.applyLoadedEntries.statemachine := by
    rw [← ready]
    rfl
  refine promoted.trans (passed.trans ?_)
  rw [same, nothing, commit, applied, commandsBetween, Nat.sub_self,
    List.drop_zero]
  congr 2
  refine List.ext_getElem? fun position => ?_
  rw [List.getElem?_map, List.getElem?_take]
  split
  · rename_i below
    have below : position < server.raft.commitIndex := by omega
    rw [List.getElem?_range' (by omega), Option.map_some, Nat.one_mul]
    exact command position below
  · rename_i behind
    rw [List.getElem?_eq_none (by rw [List.length_range']; omega)]
    rfl

end

end NvmeofRaft
