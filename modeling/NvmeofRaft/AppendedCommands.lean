import NvmeofRaft.BlockCopy
import NvmeofRaft.SlotChain

namespace NvmeofRaft

/-!
# The commands of a leadership

Proof-only history: the commands that a leader has appended since its no-op
entry.  An entry in memory still has its command, or `apply_pending` has
released it and only `cmd_len` is left; the slot records are those of the
original commands.  Entries are found from the end of the log, which trimming
does not move.
-/

/-- An entry of a leader and the command with which it was appended. -/
inductive Entry.Recalls
    (entry : Entry)
    (command : List UInt8)
    (applied : Prop) : Prop where
  | intact :
      entry.command = command →
      Recalls entry command applied
  | released :
      applied →
      entry.command = [] →
      entry.cmdLen = command.length →
      Recalls entry command applied

/--
The log ends with the entries of the commands, as far as they are in memory;
the first command was appended at the index `first`.
-/
structure EntryView.Recalls
    (view : EntryView)
    (first : Nat)
    (commands : List (List UInt8)) : Prop where
  sentinel : 0 < view.log.length
  tail : view.tail = first + commands.length
  entries :
    ∀ offset command,
      commands[offset]? = some command →
      commands.length - offset < view.log.length →
      ∃ entry,
        view.log[view.log.length - (commands.length - offset)]? =
            some entry ∧
          entry.ringSlot = 0 ∧
            entry.Recalls command (first + offset < view.applied)

/-- An entry recalls its command also where more has been applied. -/
theorem Entry.Recalls.mono
    {entry : Entry}
    {command : List UInt8}
    {before after : Prop}
    (recalls : entry.Recalls command before)
    (implies : before → after) :
    entry.Recalls command after := by
  cases recalls with
  | intact same =>
      exact .intact same
  | released applied empty length =>
      exact .released (implies applied) empty length

namespace EntryView

variable {view after : EntryView} {first : Nat}
variable {commands : List (List UInt8)}

/-- Pushed entries recall the commands they were made of. -/
theorem Recalls.push
    (recalls : view.Recalls first commands)
    (term sink : Nat)
    (added : List (List UInt8)) :
    (view.push (clientEntries term sink added)).Recalls first
      (commands ++ added) := by
  have count : (clientEntries term sink added).length = added.length :=
    List.length_map _
  refine ⟨?_, ?_, ?_⟩
  · simp only [EntryView.push, List.length_append]
    exact Nat.add_pos_left recalls.sentinel _
  · simp only [EntryView.push, List.length_append, count, recalls.tail]
    omega
  · intro offset command found inMemory
    simp only [EntryView.push, List.length_append, count] at inMemory ⊢
    by_cases old : offset < commands.length
    · rw [List.getElem?_append_left old] at found
      obtain ⟨entry, held, slot, recalled⟩ :=
        recalls.entries offset command found (by omega)
      refine ⟨entry, ?_, slot, recalled⟩
      rw [List.getElem?_append_left (by omega), ← held]
      congr 1
      omega
    · have inside : offset < (commands ++ added).length :=
        (List.getElem?_eq_some_iff.mp found).1
      rw [List.length_append] at inside
      rw [List.getElem?_append_right (Nat.le_of_not_lt old)] at found
      refine ⟨{ command, term, resultSink := some sink }, ?_, rfl,
        .intact rfl⟩
      rw [List.getElem?_append_right (by omega), clientEntries,
        List.getElem?_map]
      have position :
          view.log.length + added.length -
              (commands.length + added.length - offset) - view.log.length =
            offset - commands.length := by
        omega
      rw [position, found]
      rfl

/-- Trimming leaves the end of the log alone. -/
theorem Recalls.trim
    (recalls : view.Recalls first commands)
    {removed : Nat}
    (fits : removed ≤ view.log.length - 1) :
    (view.trim removed).Recalls first commands := by
  have sentinel := recalls.sentinel
  have front : (view.log.take 1).length = 1 := by
    rw [List.length_take]
    omega
  have size : (view.trim removed).log.length = view.log.length - removed := by
    simp only [EntryView.trim, List.length_append, front, List.length_drop]
    omega
  refine ⟨by omega, recalls.tail, ?_⟩
  intro offset command found inMemory
  have inside := (List.getElem?_eq_some_iff.mp found).1
  rw [size] at inMemory ⊢
  obtain ⟨entry, held, recalled⟩ :=
    recalls.entries offset command found (by omega)
  refine ⟨entry, ?_, recalled⟩
  show (view.log.take 1 ++ view.log.drop (1 + removed))[_]? = _
  rw [List.getElem?_append_right (by omega), front, List.getElem?_drop,
    ← held]
  congr 1
  omega

/-- A change of one entry that goes on recalling its command. -/
theorem Recalls.modify
    {position : Nat}
    {update : Entry → Entry}
    (recalls : view.Recalls first commands)
    (log : after.log = view.log.modify position update)
    (tail : after.tail = view.tail)
    (forward : view.applied ≤ after.applied)
    (kept :
      ∀ offset command entry,
        position = view.log.length - (commands.length - offset) →
        offset < commands.length →
        commands.length - offset < view.log.length →
        entry.ringSlot = 0 →
        entry.Recalls command (first + offset < view.applied) →
        (update entry).ringSlot = 0 ∧
          (update entry).Recalls command (first + offset < after.applied)) :
    after.Recalls first commands := by
  have size : after.log.length = view.log.length := by
    rw [log, List.length_modify]
  refine ⟨size.symm ▸ recalls.sentinel, tail.trans recalls.tail, ?_⟩
  intro offset command found inMemory
  rw [size] at inMemory ⊢
  have inside := (List.getElem?_eq_some_iff.mp found).1
  obtain ⟨entry, held, slot, recalled⟩ :=
    recalls.entries offset command found inMemory
  rw [log, List.getElem?_modify, held]
  by_cases here :
      position = view.log.length - (commands.length - offset)
  · obtain ⟨sameSlot, still⟩ :=
      kept offset command entry here inside inMemory slot recalled
    exact ⟨update entry, by simp [here], sameSlot, still⟩
  · exact ⟨entry, by simp [here], slot,
      recalled.mono fun before => Nat.lt_of_lt_of_le before forward⟩

end EntryView

section

variable {first : Nat} {commands : List (List UInt8)}

/-- Marking entries as committed leaves their commands alone. -/
theorem signalCommittedFrom_recalls :
    ∀ count logIdx (server : Server),
      server.entryView.Recalls first commands →
      (signalCommittedFrom count logIdx server).entryView.Recalls first
        commands := by
  intro count
  induction count with
  | zero =>
      intro logIdx server recalls
      exact recalls
  | succ count inductionHypothesis =>
      intro logIdx server recalls
      rw [signalCommittedFrom]
      split
      · refine inductionHypothesis _ _ ?_
        exact recalls.modify rfl rfl (Nat.le_refl _)
          fun _ _ _ _ _ _ slot recalled => ⟨slot, by
            cases recalled with
            | intact same => exact .intact same
            | released applied empty length =>
                exact .released applied empty length⟩
      · exact inductionHypothesis _ _ recalls

/-- The position that `log_slice` gives an entry in memory. -/
theorem logSlice_fromEnd
    {server : Server}
    {logIdx : Nat}
    (small : server.raft.log.length < 2 ^ 64)
    (below : logIdx < server.ring.tailLogIndex)
    (inMemory : server.ring.tailLogIndex - logIdx < server.raft.log.length) :
    server.logSlice logIdx =
      server.raft.log.length - (server.ring.tailLogIndex - logIdx) := by
  unfold Server.logSlice Server.oldestLogIndex sub64
  split_ifs
  all_goals omega

/-- `apply_pending` releases the entry at `last_applied`. -/
theorem applyEntry_recalls
    {server : Server}
    (small : server.raft.log.length < 2 ^ 64)
    (recalls : server.entryView.Recalls first commands)
    (allowed : server.canApply server.oldestLogIndex = true) :
    server.applyEntry.entryView.Recalls first commands := by
  simp only [Server.canApply, Bool.and_eq_true, decide_eq_true_eq] at allowed
  obtain ⟨⟨inMemory, below⟩, -⟩ := allowed
  have tail : server.ring.tailLogIndex = first + commands.length :=
    recalls.tail
  have sentinel : 0 < server.raft.log.length := recalls.sentinel
  have slice :
      server.logSlice server.raft.lastApplied =
        server.raft.log.length -
          (server.ring.tailLogIndex - server.raft.lastApplied) := by
    refine logSlice_fromEnd small below ?_
    unfold Server.oldestLogIndex sub64 at inMemory
    split at inMemory
    · omega
    · omega
  refine recalls.modify rfl rfl (Nat.le_succ _) ?_
  intro offset command entry here inside left slot recalled
  have reached : server.raft.lastApplied = first + offset := by
    have left' : commands.length - offset < server.raft.log.length := left
    have here' :
        server.logSlice server.raft.lastApplied =
          server.raft.log.length - (commands.length - offset) := here
    omega
  refine ⟨rfl, .released ?_ rfl ?_⟩
  · show first + offset < server.raft.lastApplied + 1
    omega
  · cases recalled with
    | intact same =>
        show entry.command.length = _
        rw [same]
    | released applied _ _ =>
        have before : first + offset < server.raft.lastApplied := applied
        omega

/-- Applying leaves the entries recalling their commands. -/
theorem applyPendingLoop_recalls :
    ∀ bound (server : Server),
      server.raft.log.length < 2 ^ 64 →
      server.entryView.Recalls first commands →
      (applyPendingLoop server.oldestLogIndex bound
          server).entryView.Recalls first commands ∧
        (applyPendingLoop server.oldestLogIndex bound
            server).raft.log.length =
          server.raft.log.length := by
  intro bound
  induction bound with
  | zero =>
      intro server _ recalls
      exact ⟨recalls, rfl⟩
  | succ bound inductionHypothesis =>
      intro server small recalls
      unfold applyPendingLoop
      split
      · rename_i allowed
        have size :
            server.applyEntry.raft.log.length = server.raft.log.length :=
          List.length_modify _ _ _
        have sameOldest :
            server.applyEntry.oldestLogIndex = server.oldestLogIndex := by
          unfold Server.oldestLogIndex
          rw [size]
          rfl
        have rest := inductionHypothesis server.applyEntry (size ▸ small)
          (applyEntry_recalls small recalls allowed)
        rw [sameOldest, size] at rest
        exact rest
      · exact ⟨recalls, rfl⟩

end

/-- The records are those of the commands. -/
def RingView.Recalls
    (view : RingView)
    (first : Nat)
    (commands : List (List UInt8)) : Prop :=
  ∀ logIdx record,
    view.slots.lookup logIdx = some record →
    ∃ offset command,
      logIdx = first + offset ∧ commands[offset]? = some command ∧
        record.numSlots = slotsForEntry command.length

namespace RingView

variable {view : RingView} {first : Nat} {commands : List (List UInt8)}

/-- A placed command has its slots. -/
theorem Recalls.place
    (recalls : view.Recalls first commands)
    (command : List UInt8) :
    (view.place (first + commands.length)
      (slotsForEntry command.length)).Recalls first
        (commands ++ [command]) := by
  intro logIdx record held
  by_cases newest : logIdx = first + commands.length
  · subst newest
    rw [RingView.place, AList.lookup_insert, Option.some.injEq] at held
    refine ⟨commands.length, command, rfl, ?_, ?_⟩
    · rw [List.getElem?_concat_length]
    · rw [← held]
  · rw [RingView.place, AList.lookup_insert_ne newest] at held
    obtain ⟨offset, old, position, found, slots⟩ := recalls _ _ held
    refine ⟨offset, old, position, ?_, slots⟩
    have inside := (List.getElem?_eq_some_iff.mp found).1
    rw [List.getElem?_append_left inside, found]

theorem Recalls.placeAll
    (added : List (List UInt8)) :
    ∀ {view : RingView} {commands : List (List UInt8)},
      view.Recalls first commands →
      (view.placeAll (first + commands.length)
        (added.map fun command : List UInt8 =>
          slotsForEntry command.length)).Recalls first
            (commands ++ added) := by
  induction added with
  | nil =>
      intro view commands recalls
      rw [List.append_nil]
      exact recalls
  | cons command rest inductionHypothesis =>
      intro view commands recalls
      have placed := inductionHypothesis (recalls.place command)
      rw [List.length_append, ← Nat.add_assoc, List.append_assoc] at placed
      exact placed

end RingView

/-- Placing entries leaves the records of older ones alone. -/
theorem RingView.placeAll_older
    (needs : List Nat) :
    ∀ {view : RingView} {start logIdx : Nat},
      logIdx < start →
      (view.placeAll start needs).slots.lookup logIdx =
        view.slots.lookup logIdx := by
  induction needs with
  | nil =>
      intro view start logIdx older
      rfl
  | cons needed rest inductionHypothesis =>
      intro view start logIdx older
      rw [RingView.placeAll, inductionHypothesis (Nat.lt_succ_of_lt older),
        RingView.place, AList.lookup_insert_ne (Nat.ne_of_lt older)]

/-- Without new entries, records are at most removed. -/
theorem Server.RingChange.lookup
    {before after : Server}
    (change : before.RingChange after)
    (tail : after.ring.tailLogIndex = before.ring.tailLogIndex)
    {logIdx : Nat}
    {record : SlotRecord}
    (held : after.ringView.slots.lookup logIdx = some record) :
    before.ringView.slots.lookup logIdx = some record := by
  cases change with
  | kept same =>
      rwa [same] at held
  | @appended commands placed =>
      have moved : after.ring.tailLogIndex = _ :=
        congrArg RingView.tail placed
      rw [RingView.placeAll_tail] at moved
      have none : commands = [] := by
        refine List.eq_nil_of_length_eq_zero ?_
        have sum : after.ring.tailLogIndex =
            before.ring.tailLogIndex + commands.length :=
          moved
        omega
      rw [placed, none] at held
      exact held
  | collected cut =>
      rw [cut] at held
      exact (lookup_eraseSlots _ _ _ _ _ held).1

/-- Changes of the ring leave its layout alone. -/
theorem Server.RingChange.layout
    {before after : Server}
    (change : before.RingChange after) :
    after.layout = before.layout := by
  have same :
      after.ringView.ringSlots = before.ringView.ringSlots ∧
        after.ringView.extents = before.ringView.extents := by
    cases change with
    | kept same =>
        rw [same]
        exact ⟨rfl, rfl⟩
    | appended placed =>
        rw [placed, RingView.placeAll_ringSlots, RingView.placeAll_extents]
        exact ⟨rfl, rfl⟩
    | collected cut =>
        rw [cut]
        exact ⟨rfl, rfl⟩
  exact congrArg₂ RingLayout.mk same.1 same.2

/-- The commands that a step appends to the log. -/
def Process.newCommands
    (proc : Process)
    (input : Input) :
    List (List UInt8) :=
  match input.act with
  | .apply _ commands =>
      let grows := (proc.advance input).any fun next =>
        decide (proc.server.ring.tailLogIndex <
          next.server.ring.tailLogIndex)
      if grows then commands else []
  | _ =>
      []

/-- The commands that the steps of a leadership append, in log order. -/
def appendedCommands :
    Process → List Input → List (List UInt8)
  | _, [] =>
      []
  | proc, input :: rest =>
      proc.newCommands input ++
        (proc.advance input).elim [] fun next => appendedCommands next rest

/-- A leader whose entries and slot records recall the appended commands. -/
structure Process.Recalls
    (proc : Process)
    (layout : RingLayout)
    (first : Nat)
    (commands : List (List UInt8)) : Prop where
  chaining : proc.Chaining layout.extents
  layout : proc.server.layout = layout
  entries : proc.server.entryView.Recalls first commands
  records : proc.server.ringView.Recalls first commands
  /-- Entries with a slot record are in memory. -/
  inMemory :
    ∀ logIdx record,
      proc.server.ring.logSlotMap.lookup logIdx = some record →
      proc.server.ring.tailLogIndex - logIdx < proc.server.raft.log.length

theorem newCommands_of_apply
    {proc next : Process}
    {input : Input}
    {sink : Nat}
    {commands : List (List UInt8)}
    (act : input.act = .apply sink commands)
    (advanced : proc.advance input = some next)
    (moved :
      next.server.ring.tailLogIndex =
        proc.server.ring.tailLogIndex + commands.length) :
    proc.newCommands input = commands := by
  rw [Process.newCommands, act]
  dsimp only
  rw [advanced]
  cases commands with
  | nil =>
      exact ite_self _
  | cons command rest =>
      rw [List.length_cons] at moved
      have grows :
          proc.server.ring.tailLogIndex < next.server.ring.tailLogIndex := by
        omega
      simp [grows]

/-- A step that leaves the tail alone appends no commands. -/
theorem newCommands_of_tail
    {proc next : Process}
    {input : Input}
    (advanced : proc.advance input = some next)
    (same :
      next.server.ring.tailLogIndex = proc.server.ring.tailLogIndex) :
    proc.newCommands input = [] := by
  unfold Process.newCommands
  split
  · rw [advanced]
    simp [same]
  · rfl

section

variable {proc : Process} {input : Input} {result : Process × Outputs}
variable {layout : RingLayout} {first : Nat}
variable {commands : List (List UInt8)}
variable (tiled : Tiles 0 layout.extents)
variable (recalls : proc.Recalls layout first commands)
variable (inside : soundLeadership proc input = true)
variable (stepped : proc.step input.outcomes input.act = some result)

include tiled recalls inside stepped

/-- A step that leaves the length of the log alone appends nothing. -/
theorem Process.Recalls.quiet
    (entries : result.1.server.entryView.Recalls first commands)
    (length :
      result.1.server.raft.log.length = proc.server.raft.log.length) :
    result.1.Recalls layout first commands := by
  have tail :
      result.1.server.ring.tailLogIndex = proc.server.ring.tailLogIndex :=
    entries.tail.trans recalls.entries.tail.symm
  have change := recalls.chaining.changes tiled inside stepped
  refine ⟨recalls.chaining.goesOn tiled inside stepped,
    change.layout.trans recalls.layout, entries, ?_, ?_⟩
  · intro logIdx record held
    exact recalls.records logIdx record (change.lookup tail held)
  · intro logIdx record held
    rw [tail, length]
    exact recalls.inMemory logIdx record (change.lookup tail held)

/-- A client request that is taken adds its commands. -/
theorem Process.Recalls.appended
    {sink : Nat}
    {added : List (List UInt8)}
    (act : input.act = .apply sink added)
    (pushed :
      result.1.server.entryView =
        proc.server.entryView.push
          (clientEntries proc.server.entryView.term sink added)) :
    result.1.Recalls layout first (commands ++ added) := by
  have count :
      (clientEntries proc.server.entryView.term sink added).length =
        added.length :=
    List.length_map _
  have tail :
      result.1.server.ring.tailLogIndex =
        proc.server.ring.tailLogIndex + added.length := by
    rw [← count]
    exact congrArg EntryView.tail pushed
  have length :
      result.1.server.raft.log.length =
        proc.server.raft.log.length + added.length := by
    rw [← count, ← List.length_append]
    exact congrArg (fun view => view.log.length) pushed
  have upto : proc.server.ring.tailLogIndex = first + commands.length :=
    recalls.entries.tail
  have change := recalls.chaining.changes tiled inside stepped
  have placed :
      result.1.server.ringView =
        (proc.server.ringView.withTail
          (proc.server.ring.tailLogIndex + added.length)).placeAll
            proc.server.ring.tailLogIndex
            (added.map fun command : List UInt8 =>
              slotsForEntry command.length) := by
    rcases recalls.chaining.applies tiled inside stepped act with
      same | placed
    · have none : added = [] := by
        refine List.eq_nil_of_length_eq_zero ?_
        have sameTail : result.1.server.ring.tailLogIndex =
            proc.server.ring.tailLogIndex :=
          congrArg RingView.tail same
        omega
      rw [none]
      exact same
    · exact placed
  have entries := recalls.entries.push proc.server.entryView.term sink added
  rw [← pushed] at entries
  refine ⟨recalls.chaining.goesOn tiled inside stepped,
    change.layout.trans recalls.layout, entries, ?_, ?_⟩
  · rw [placed, upto]
    exact RingView.Recalls.placeAll added recalls.records
  · intro logIdx record held
    rw [tail, length]
    by_cases older : logIdx < proc.server.ring.tailLogIndex
    · have held' : result.1.server.ringView.slots.lookup logIdx = _ := held
      rw [placed, RingView.placeAll_older _ older] at held'
      have inMemory := recalls.inMemory logIdx record held'
      omega
    · have sentinel : 0 < proc.server.raft.log.length :=
        recalls.entries.sentinel
      omega

/-- The collector trims no entry that has a slot record. -/
theorem Process.Recalls.collected
    (act : input.act = .slotGc)
    (small : proc.server.raft.log.length < 2 ^ 64) :
    result.1.Recalls layout first commands ∧
      result.1.server.raft.log.length ≤ proc.server.raft.log.length := by
  have collects :
      result.1.server =
        (proc.server.withOutcomes input.outcomes).collectGarbage := by
    rw [act] at stepped
    exact Process.step_slotGc stepped
  rcases collectGarbage_trims (proc.server.withOutcomes input.outcomes) with
    same | ⟨removed, fits, below, trimmed⟩
  · have view : result.1.server.entryView = proc.server.entryView :=
      collects ▸ same
    have length :
        result.1.server.raft.log.length = proc.server.raft.log.length :=
      congrArg (fun view => view.log.length) view
    exact ⟨recalls.quiet tiled inside stepped (view ▸ recalls.entries) length,
      length.le⟩
  have view :
      result.1.server.entryView = proc.server.entryView.trim removed :=
    collects ▸ trimmed
  have sentinel : 0 < proc.server.raft.log.length :=
    recalls.entries.sentinel
  have fits' : removed ≤ proc.server.raft.log.length - 1 := fits
  have length :
      result.1.server.raft.log.length =
        proc.server.raft.log.length - removed := by
    have cut := congrArg (fun view => view.log.length) view
    simp only [EntryView.trim, List.length_append, List.length_take,
      List.length_drop] at cut
    change result.1.server.raft.log.length =
      min 1 proc.server.raft.log.length +
        (proc.server.raft.log.length - (1 + removed)) at cut
    omega
  have tail :
      result.1.server.ring.tailLogIndex = proc.server.ring.tailLogIndex :=
    congrArg EntryView.tail view
  have change := recalls.chaining.changes tiled inside stepped
  refine ⟨⟨recalls.chaining.goesOn tiled inside stepped,
    change.layout.trans recalls.layout, view ▸ recalls.entries.trim fits, ?_,
    ?_⟩, length ▸ Nat.sub_le _ _⟩
  · intro logIdx record held
    exact recalls.records logIdx record (change.lookup tail held)
  · intro logIdx record held
    have ring :
        result.1.server.ringView =
          { proc.server.ringView with
            slots := eraseSlots
              (proc.server.minMatch - proc.server.ring.gcUpTo)
              (proc.server.ring.gcUpTo + 1) proc.server.ring.logSlotMap
            gcUpTo := proc.server.minMatch } := by
      rw [collects]
      exact collectGarbage_ringView recalls.chaining.chain.leader
    have held' : result.1.server.ringView.slots.lookup logIdx = _ := held
    rw [ring] at held'
    obtain ⟨older, outside⟩ := lookup_eraseSlots _ _ _ _ _ held'
    obtain ⟨above, upto⟩ :=
      recalls.chaining.chain.chained.range _ _ older
    have above' : proc.server.ring.gcUpTo < logIdx := above
    have upto' : logIdx < proc.server.ring.tailLogIndex := upto
    have below' :
        sub64 proc.server.ring.tailLogIndex
            (proc.server.raft.log.length - 1) + removed ≤
          min proc.server.minMatch proc.server.raft.lastApplied :=
      below
    unfold sub64 at below'
    rw [tail, length]
    split at below'
    · omega
    · omega

/-- One step of a leadership. -/
theorem Process.Recalls.goesOn
    (small : proc.server.raft.log.length < 2 ^ 64)
    (advanced : proc.advance input = some result.1) :
    result.1.Recalls layout first
        (commands ++ proc.newCommands input) ∧
      result.1.server.raft.log.length ≤
        proc.server.raft.log.length + (proc.newCommands input).length := by
  have still :
      ∀ {view : EntryView},
        result.1.server.entryView = view →
        view.Recalls first commands →
        view.log.length = proc.server.raft.log.length →
        result.1.Recalls layout first
            (commands ++ proc.newCommands input) ∧
          result.1.server.raft.log.length ≤
            proc.server.raft.log.length +
              (proc.newCommands input).length := by
    intro view same entries length
    have kept := recalls.quiet tiled inside stepped (same ▸ entries)
      ((congrArg (fun view => view.log.length) same).trans length)
    have sameTail := kept.entries.tail.trans recalls.entries.tail.symm
    rw [newCommands_of_tail advanced sameTail, List.append_nil]
    exact ⟨kept, le_of_eq
      ((congrArg (fun view => view.log.length) same).trans length)⟩
  have oneTerm := (Bool.and_eq_true_iff.mp inside).1
  have noRestart := noRestart_of_soundLeadership inside
  have leader : proc.server.entryView.role = .leader :=
    recalls.chaining.chain.leader
  have leads := recalls.chaining.leads
  have does := Process.step_entries recalls.entries.sentinel stepped
    noRestart
  generalize viewed : result.1.server.entryView = view at does
  generalize acts : input.act = act at does
  unfold oneLeadership at oneTerm
  rw [acts] at oneTerm
  cases does with
  | kept =>
      exact still viewed recalls.entries rfl
  | bumped message =>
      have low :
          ∀ term, term ≤ proc.server.entryView.term →
            proc.server.entryView.bump term = proc.server.entryView :=
        fun _ => EntryView.bump_of_le
      cases act with
      | voteReply index rsp =>
          cases message
          exact still (viewed.trans (low _ (of_decide_eq_true oneTerm)))
            recalls.entries rfl
      | handleVote src req =>
          cases message
          exact still (viewed.trans (low _ (of_decide_eq_true oneTerm)))
            recalls.entries rfl
      | _ =>
          cases message
  | handled handled =>
      exact still
        (viewed.trans (handled.refused leader (of_decide_eq_true oneTerm)))
        recalls.entries rfl
  | finished _ =>
      cases oneTerm
  | campaigned pc =>
      rw [pc] at leads
      cases leads
  | promoted pc _ =>
      rw [pc] at leads
      cases leads
  | committed _ _ above _ =>
      obtain ⟨sentinel, tail, entries⟩ := recalls.entries
      refine still viewed
        (signalCommittedFrom_recalls _ _ _ ⟨sentinel, tail, entries⟩) ?_
      exact (signalCommittedFrom_jobs _ _ _).1.length
  | @appended sink added _ =>
      have pushed := recalls.appended tiled inside stepped acts viewed
      have moved :
          result.1.server.ring.tailLogIndex =
            proc.server.ring.tailLogIndex + added.length := by
        have grown : result.1.server.ring.tailLogIndex = _ :=
          pushed.entries.tail
        have before : proc.server.ring.tailLogIndex = _ :=
          recalls.entries.tail
        rw [grown, before, List.length_append, Nat.add_assoc]
      have length := congrArg (fun view => view.log.length) viewed
      simp only [EntryView.push, List.length_append, clientEntries,
        List.length_map] at length
      rw [newCommands_of_apply acts advanced moved]
      exact ⟨pushed, length.le⟩
  | applied =>
      unfold Server.applyCommitted at viewed
      split at viewed
      · obtain ⟨entries, length⟩ := applyPendingLoop_recalls _
          (proc.server.withOutcomes input.outcomes) small recalls.entries
        exact still viewed entries length
      · exact still viewed recalls.entries rfl
  | collected =>
      obtain ⟨kept, length⟩ := recalls.collected tiled inside stepped acts small
      have sameTail := kept.entries.tail.trans recalls.entries.tail.symm
      rw [newCommands_of_tail advanced sameTail, List.append_nil]
      exact ⟨kept, length⟩

end

/-- The commands of a leadership are recalled at the end of every run of it. -/
theorem Process.Recalls.run
    {layout : RingLayout}
    {first : Nat}
    (tiled : Tiles 0 layout.extents) :
    ∀ {inputs proc commands final},
      proc.Recalls layout first commands →
      proc.server.raft.log.length +
          (appendedCommands proc inputs).length < 2 ^ 64 →
      runWhile soundLeadership Process.advance proc inputs = some final →
      final.Recalls layout first
          (commands ++ appendedCommands proc inputs) ∧
        final.server.raft.log.length < 2 ^ 64 := by
  intro inputs
  induction inputs with
  | nil =>
      intro proc commands final recalls small run
      simp only [runWhile, Option.some.injEq] at run
      rw [appendedCommands, List.append_nil, ← run]
      exact ⟨recalls, Nat.lt_of_le_of_lt (Nat.le_add_right _ _) small⟩
  | cons input inputs inductionHypothesis =>
      intro proc commands final recalls small run
      obtain ⟨next, inside, advanced, rest⟩ := runWhile_cons run
      rw [appendedCommands, advanced, Option.elim_some] at small ⊢
      rw [List.length_append] at small
      have smallHere : proc.server.raft.log.length < 2 ^ 64 := by
        omega
      obtain ⟨result, stepped, same⟩ := Option.map_eq_some_iff.mp advanced
      subst same
      obtain ⟨longer, length⟩ :=
        recalls.goesOn tiled inside stepped smallHere advanced
      rw [← List.append_assoc]
      exact inductionHypothesis longer (by omega) rest

/--
What a new leader takes over from earlier leaderships: slot records that chain
up to the tail, of entries in memory that were appended with the commands
`held`.
-/
structure Process.Inherits
    (candidate leader : Process)
    (first : Nat)
    (held : List (List UInt8)) : Prop where
  chained :
    candidate.server.markedView.Chained candidate.server.ring.tailLogIndex
  records : candidate.server.ringView.Recalls first held
  inMemory :
    ∀ logIdx record,
      candidate.server.ring.logSlotMap.lookup logIdx = some record →
      candidate.server.ring.tailLogIndex - logIdx <
        candidate.server.raft.log.length
  entries : leader.server.entryView.Recalls first (held ++ [[]])

section

variable {candidate leader : Process} {election : Input}
variable (started : candidate.Started)
variable (wins : candidate.node.wins election.act = true)
variable (succeed : election.outcomes.succeed = true)
variable (elected : candidate.advance election = some leader)
variable (tiled : Tiles 0 candidate.server.io.extents)

include started wins succeed elected tiled

/-- An election without failures promotes the candidate and places the no-op. -/
theorem Process.elected_places :
    0 < candidate.server.raft.log.length ∧
      leader.server.ringView =
          (candidate.server.markedView.withTail
            (candidate.server.ring.tailLogIndex + 1)).placeAll
              candidate.server.ring.tailLogIndex [slotsForEntry 0] ∧
        ∃ load,
          leader.server.entryView =
            ((candidate.server.withOutcomes election.outcomes).promote
              load).entryView := by
  let Placed : Server → Prop := fun server =>
    0 < candidate.server.raft.log.length ∧
      server.ringView =
          (candidate.server.markedView.withTail
            (candidate.server.ring.tailLogIndex + 1)).placeAll
              candidate.server.ring.tailLogIndex [slotsForEntry 0] ∧
        ∃ load,
          server.entryView =
            ((candidate.server.withOutcomes election.outcomes).promote
              load).entryView
  suffices leader.main = .top ∧ Placed leader.server from this.2
  refine Process.elected_wp started.wellformed wins elected
    fun _ load _ running sentinel won => ?_
  refine wp_mono (wp_and
    (becomeLeader_places load succeed tiled sentinel won)
    (becomeLeader_entries load _)) ?_ fun _ _ ends => ends.1
  rintro _ final ⟨⟨-, placed⟩, unchanged | ⟨-, promoted⟩⟩
  · have tail := congrArg RingView.tail placed
    rw [RingView.placeAll_tail] at tail
    have same : final.ring.tailLogIndex = _ :=
      congrArg EntryView.tail unchanged
    have grown : final.ring.tailLogIndex =
        candidate.server.ring.tailLogIndex + 1 :=
      tail
    exact absurd (grown.symm.trans same) (Nat.succ_ne_self _)
  · exact ⟨sentinel, placed, load, promoted⟩

/-- A candidate without slot records hands down nothing. -/
theorem Process.Inherits.of_noRecords
    (empty : candidate.server.ring.logSlotMap.entries = []) :
    candidate.Inherits leader candidate.server.ring.tailLogIndex [] := by
  have noRecord :
      ∀ {logIdx record},
        candidate.server.ring.logSlotMap.lookup logIdx ≠ some record := by
    intro logIdx record held
    rw [AList.lookup, empty] at held
    cases held
  obtain ⟨-, -, load, promoted⟩ :=
    Process.elected_places started wins succeed elected tiled
  obtain ⟨tail, front, noOp, log, -, noCommand, noSlot⟩ :=
    promote_appends (candidate.server.withOutcomes election.outcomes) load
  have log' : leader.server.entryView.log = front ++ [noOp] :=
    (congrArg EntryView.log promoted).trans log
  refine ⟨markedView_chained empty _, ?_, ?_, ?_⟩
  · exact fun _ _ held => absurd held noRecord
  · exact fun _ _ held => absurd held noRecord
  · refine ⟨?_, (congrArg EntryView.tail promoted).trans tail, ?_⟩
    · rw [log', List.length_append]
      exact Nat.succ_pos _
    · intro offset command found _
      obtain ⟨rfl, rfl⟩ : offset = 0 ∧ command = [] := by
        cases offset with
        | zero => simpa using found.symm
        | succ offset => cases found
      refine ⟨noOp, ?_, noSlot, .intact noCommand⟩
      rw [log', List.length_append]
      exact List.getElem?_concat_length

/-- A new leader recalls the inherited commands and its empty one. -/
theorem Process.Recalls.of_election
    {first : Nat}
    {held : List (List UInt8)}
    (inherits : candidate.Inherits leader first held) :
    leader.Recalls candidate.server.layout first (held ++ [[]]) := by
  obtain ⟨sentinel, placed, load, promoted⟩ :=
    Process.elected_places started wins succeed elected tiled
  obtain ⟨tail, front, noOp, log, length, -, -⟩ :=
    promote_appends (candidate.server.withOutcomes election.outcomes) load
  have sameTail :
      leader.server.ring.tailLogIndex =
        candidate.server.ring.tailLogIndex + 1 :=
    (congrArg EntryView.tail promoted).trans tail
  have upto :
      candidate.server.ring.tailLogIndex = first + held.length := by
    have grown : leader.server.ring.tailLogIndex = _ :=
      inherits.entries.tail
    rw [List.length_append, List.length_singleton] at grown
    omega
  have sameLength :
      leader.server.raft.log.length =
        candidate.server.raft.log.length + 1 := by
    have same : leader.server.raft.log = front ++ [noOp] :=
      (congrArg EntryView.log promoted).trans log
    have sameFront : front.length = candidate.server.raft.log.length :=
      length
    rw [same, List.length_append, sameFront]
    rfl
  have marked :
      ∀ logIdx record,
        candidate.server.markedView.slots.lookup logIdx = some record →
        ∃ old,
          candidate.server.ring.logSlotMap.lookup logIdx = some old ∧
            record.numSlots = old.numSlots := by
    intro logIdx record held
    have held' : candidate.server.ring.logSlotMap.markUsing.lookup logIdx =
        some record :=
      held
    rw [lookup_markUsing, Option.map_eq_some_iff] at held'
    obtain ⟨old, found, rfl⟩ := held'
    exact ⟨old, found, rfl⟩
  refine ⟨Process.Chaining.of_election started wins succeed elected tiled
    inherits.chained, ?_, inherits.entries, ?_, ?_⟩
  · refine congrArg₂ RingLayout.mk ?_ ?_
    · have same := congrArg RingView.ringSlots placed
      rw [RingView.placeAll_ringSlots] at same
      exact same
    · have same := congrArg RingView.extents placed
      rw [RingView.placeAll_extents] at same
      exact same
  · rw [placed, upto]
    refine RingView.Recalls.placeAll [[]] ?_
    intro logIdx record held
    obtain ⟨old, found, slots⟩ := marked logIdx record held
    rw [slots]
    exact inherits.records logIdx old found
  · intro logIdx record held
    rw [sameTail, sameLength]
    by_cases older : logIdx < candidate.server.ring.tailLogIndex
    · have held' : leader.server.ringView.slots.lookup logIdx = _ := held
      rw [placed, RingView.placeAll_older _ older] at held'
      obtain ⟨old, found, -⟩ := marked logIdx record held'
      have inMemory := inherits.inMemory logIdx old found
      omega
    · omega

end

end NvmeofRaft
