import NvmeofRaft.Fabric
import NvmeofRaft.RingImage

namespace NvmeofRaft

/-!
# The image on the leader's volume

What an append of a leader adds to the file, to the slot records and to the
history of placed entries.
-/

/-- New entries with the slots that the allocator gives them. -/
def Server.placing
    (server : Server)
    (entries : List Entry) :
    List (Entry × Nat) :=
  entries.zip (allocateAll server.ring.ringSlots server.io.extents entries
    (server.ring.tailSlot, 0))

/-- One placement for each entry. -/
theorem placing_length
    (server : Server)
    (entries : List Entry) :
    (server.placing entries).length = entries.length := by
  rw [Server.placing, List.length_zip, allocateAll_length, Nat.min_self]

theorem placing_entries
    (server : Server)
    (entries : List Entry) :
    (server.placing entries).map Prod.fst = entries :=
  List.map_fst_zip (le_of_eq (allocateAll_length _ _ _ _).symm)

/-- The terms of the new entries, whatever their slots. -/
theorem placing_terms
    (server : Server)
    (entries : List Entry) :
    (server.placing entries).map (fun item => item.1.term) =
      entries.map Entry.term := by
  rw [← placing_entries server entries, List.map_map, placing_entries]
  rfl

/-- Client entries carry the leader's term. -/
theorem clientEntries_terms
    (term sink : Nat)
    (commands : List (List UInt8)) :
    (clientEntries term sink commands).map Entry.term =
      List.replicate commands.length term := by
  rw [clientEntries, List.map_map]
  exact List.map_const'

theorem placing_entry
    {server : Server}
    {entries : List Entry}
    {offset start : Nat}
    {entry : Entry}
    (found : (server.placing entries)[offset]? = some (entry, start)) :
    entries[offset]? = some entry :=
  (List.getElem?_zip_eq_some.mp found).1

/-- A leader has appended entries, placed them and written them. -/
structure Server.Appends
    (before after : Server)
    (entries : List Entry) : Prop where
  leader : after.raft.state = .leader
  tail :
    after.ring.tailLogIndex = before.ring.tailLogIndex + entries.length
  sentinel : 0 < before.raft.log.length
  log :
    ∃ front,
      after.raft.log = front ++ entries ∧
        front.length = before.raft.log.length
  ringPart :
    ∀ position,
      headerSize ≤ position →
      after.io.file position =
        writeEntries (before.placing entries) before.ring.tailLogIndex
          before.io.file position
  recorded :
    ∀ offset entry start,
      (before.placing entries)[offset]? = some (entry, start) →
      after.ring.logSlotMap.lookup (before.ring.tailLogIndex + offset) =
        some { start, numSlots := entry.needed, state := .using }
  older :
    ∀ logIdx record,
      logIdx < before.ring.tailLogIndex →
      after.ring.logSlotMap.lookup logIdx = some record →
      ∃ old,
        before.ring.logSlotMap.lookup logIdx = some old ∧
          record.start = old.start

section

variable {before after : Server} {entries : List Entry}

/-- The new entries are found behind the old tail. -/
theorem Server.Appends.logAt
    (appends : before.Appends after entries)
    (small : after.raft.log.length < 2 ^ 64)
    {offset : Nat}
    {entry : Entry}
    (found : entries[offset]? = some entry) :
    after.logAt (before.ring.tailLogIndex + offset) = entry := by
  obtain ⟨front, log, sameLength⟩ := appends.log
  have sentinel := appends.sentinel
  have tail := appends.tail
  have inside := (List.getElem?_eq_some_iff.mp found).1
  have length : after.raft.log.length = front.length + entries.length := by
    rw [log, List.length_append]
  rw [Server.logAt, logSlice_fromEnd small (by omega) (by omega), log,
    List.getD_eq_getElem?_getD, List.getElem?_append_right (by
      rw [← log]
      omega), ← log]
  have position :
      after.raft.log.length -
          (after.ring.tailLogIndex -
            (before.ring.tailLogIndex + offset)) - front.length =
        offset := by
    omega
  rw [position, found]
  rfl

/-- The history notes the new entries with their slots. -/
theorem Server.Appends.appendedSince
    (appends : before.Appends after entries)
    (small : after.raft.log.length < 2 ^ 64) :
    after.appendedSince before = before.placing entries := by
  have tail := appends.tail
  have count :
      after.ring.tailLogIndex - before.ring.tailLogIndex = entries.length := by
    omega
  rw [Server.appendedSince, if_pos appends.leader, count]
  refine List.ext_getElem? fun offset => ?_
  rw [List.getElem?_map]
  by_cases inside : offset < entries.length
  · obtain ⟨⟨entry, start⟩, found⟩ :
        ∃ item, (before.placing entries)[offset]? = some item :=
      ⟨_, List.getElem?_eq_getElem (placing_length before entries ▸ inside)⟩
    rw [found, List.getElem?_range inside, Option.map_some]
    dsimp only
    rw [appends.logAt small (placing_entry found),
      appends.recorded offset entry start found]
    rfl
  · rw [List.getElem?_eq_none (by rw [List.length_range]; omega),
      List.getElem?_eq_none (by rw [placing_length]; omega)]
    rfl

/-- The outcomes of the coming calls do not matter. -/
theorem Server.Appends.ofOutcomes
    {outcomes : IoOutcomes}
    (appends : (before.withOutcomes outcomes).Appends after entries) :
    before.Appends after entries :=
  ⟨appends.leader, appends.tail, appends.sentinel, appends.log,
    appends.ringPart, appends.recorded, appends.older⟩

/-- A persist call at the end of an append. -/
theorem Server.Writes.appends
    {pushed : Server}
    {front : List Entry}
    (writes : pushed.Writes entries.length after)
    (log : pushed.raft.log = front ++ entries)
    (sameLength : front.length = before.raft.log.length)
    (held : 0 < before.raft.log.length)
    (tail :
      pushed.ring.tailLogIndex = before.ring.tailLogIndex + entries.length)
    (tailSlot : pushed.ring.tailSlot = before.ring.tailSlot)
    (ringSlots : pushed.ring.ringSlots = before.ring.ringSlots)
    (io : pushed.io = before.io)
    (leader : pushed.raft.state = .leader)
    (older :
      ∀ logIdx record,
        pushed.ring.logSlotMap.lookup logIdx = some record →
        ∃ old,
          before.ring.logSlotMap.lookup logIdx = some old ∧
            record.start = old.start)
    (same : after.entryView = pushed.entryView) :
    before.Appends after entries := by
  have sentinel : 0 < front.length := sameLength ▸ held
  have fresh : pushed.freshEntries entries.length = entries := by
    rw [Server.freshEntries, log, List.length_append, Nat.add_sub_cancel,
      max_eq_right sentinel, List.drop_left]
  have placements :
      pushed.placements entries.length = before.placing entries := by
    rw [Server.placements, fresh, ringSlots, io, tailSlot]
    rfl
  have first :
      pushed.firstPersisted entries.length = before.ring.tailLogIndex := by
    rw [Server.firstPersisted, log, List.length_append, Nat.add_sub_cancel,
      max_eq_right sentinel, Nat.add_sub_cancel_left, tail,
      sub64_of_le (Nat.le_add_left _ _), Nat.add_sub_cancel]
  have slots := writes.slots
  rw [if_pos leader, placements, first] at slots
  refine ⟨?_, ?_, held, ⟨front, ?_, sameLength⟩, ?_, ?_, ?_⟩
  · exact (congrArg EntryView.role same).trans leader
  · exact (congrArg EntryView.tail same).trans tail
  · exact (congrArg EntryView.log same).trans log
  · intro position behind
    rw [writes.ringPart position behind, placements, first, io]
  · intro offset entry start found
    rw [slots]
    exact recordEntries_lookup _ _ _ _ _ _ found
  · intro logIdx record earlier held
    rw [slots, recordEntries_front _ _ _ _ (Or.inl earlier)] at held
    exact older logIdx record held

end

section

variable {server : Server}

/-- A call that writes its entries leaves those in memory as they are. -/
theorem persistCircular_writes_entries
    (succeeds : server.Succeeds)
    (count : Nat) :
    wp (persistCircular true count)
      (fun _ final =>
        server.Writes (server.persistCount count) final ∧
          final.entryView = server.entryView)
      (fun _ _ => False) server := by
  have entries := (persistCircular_entryView true count).ends server
  exact wp_mono (wp_and (persistCircular_writes succeeds count) entries)
    (fun _ _ both => both) fun _ _ never => never.1

/-- A client request is refused, or its entries are appended. -/
theorem applyCommands_appends
    (writable : server.Writable)
    (sentinel : 0 < server.raft.log.length)
    (sink : Nat)
    (commands : List (List UInt8)) :
    wp (applyCommands sink commands)
      (fun _ final =>
        final = server ∨
          server.Appends final
            (clientEntries server.raft.currentTerm sink commands))
      (fun _ _ => False) server := by
  obtain ⟨ring, io⟩ := appendCommands_ringView sink commands server
  have log := appendCommands_log server sink commands
  have role : (server.appendCommands sink commands).raft.state = .leader :=
    (congrArg EntryView.role
      (appendCommands_entryView sink commands server)).trans writable.leader
  have succeeds : (server.appendCommands sink commands).Succeeds := by
    rw [Server.Succeeds, io]
    exact writable.succeed
  have count :
      (clientEntries server.raft.currentTerm sink commands).length =
        commands.length :=
    List.length_map _
  simp only [applyCommands, wp_bind, wp_get, wp_ite, wp_pure, wp_modify,
    wp_tryCatch]
  split_ifs with empty follower full
  · exact Or.inl trivial
  · exact Or.inl trivial
  · exact Or.inl trivial
  · have positive : commands.length ≠ 0 := by
      simpa using empty
    refine wp_mono (persistCircular_writes_entries succeeds commands.length)
      ?_ fun _ _ never => never.elim
    rintro _ final ⟨writes, same⟩
    rw [Server.persistCount, if_neg positive, ← count] at writes
    refine Or.inr (writes.appends log rfl sentinel ?_ ?_ ?_ io role ?_
      same)
    · rw [count]
      exact congrArg RingView.tail ring
    · exact congrArg RingView.tailSlot ring
    · exact congrArg RingView.ringSlots ring
    · intro logIdx record held
      have slots := congrArg RingView.slots ring
      change (server.appendCommands sink commands).ring.logSlotMap =
        server.ring.logSlotMap at slots
      rw [slots] at held
      exact ⟨record, held, rfl⟩

/-- A winner appends its no-op entry. -/
theorem becomeLeader_appends
    (load : Nat → Option (List UInt8))
    (succeed : server.io.outcomes.succeed = true)
    (sentinel : 0 < server.raft.log.length)
    (won : server.quorumLeft = 0) :
    wp (becomeLeader load)
      (fun _ final =>
        final.entryView = (server.promote load).entryView ∧
          ∃ noOp : Entry,
            noOp.command = [] ∧ server.Appends final [noOp])
      (fun _ _ => False) server := by
  obtain ⟨ring, io⟩ := promote_ringView server load
  obtain ⟨applied, -, viewed⟩ := promote_view server load
  have role : (server.promote load).raft.state = .leader :=
    congrArg View.role viewed
  obtain ⟨tail, front, noOp, log, length, noCommand, -⟩ :=
    promote_appends server load
  have succeeds : (server.promote load).Succeeds := by
    rw [Server.Succeeds, io]
    exact succeed
  simp only [becomeLeader, wp_bind, wp_get, wp_ite, wp_modify, wp_pure, won,
    if_true]
  refine wp_mono (persistCircular_writes_entries succeeds 1)
    ?_ fun _ _ never => never
  rintro _ final ⟨writes, same⟩
  have appends : server.Appends final [noOp] := by
    refine writes.appends log length sentinel tail ?_ ?_ io role ?_ same
    · exact congrArg RingView.tailSlot ring
    · exact congrArg RingView.ringSlots ring
    · intro logIdx record held
      have slots := congrArg RingView.slots ring
      change (server.promote load).ring.logSlotMap =
        server.ring.logSlotMap.markUsing at slots
      rw [slots, lookup_markUsing, Option.map_eq_some_iff] at held
      obtain ⟨old, found, rfl⟩ := held
      exact ⟨old, found, rfl⟩
  exact ⟨same, noOp, noCommand, appends.leader, appends.tail,
    appends.sentinel, appends.log, appends.ringPart, appends.recorded,
    appends.older⟩

end

/-- A client request that a leader gets is refused or appended. -/
theorem Process.step_apply
    {proc : Process}
    {outcomes : IoOutcomes}
    {sink : Nat}
    {commands : List (List UInt8)}
    {result : Process × Outputs}
    (writable : (proc.server.withOutcomes outcomes).Writable)
    (sentinel : 0 < proc.server.raft.log.length)
    (stepped : proc.step outcomes (.apply sink commands) = some result) :
    result.1.server.ring.tailLogIndex = proc.server.ring.tailLogIndex ∧
        result.1.server.ringPart = proc.server.ringPart ∨
      proc.server.Appends result.1.server
        (clientEntries proc.server.raft.currentTerm sink commands) := by
  have spec :
      proc.BodySpec outcomes (.apply sink commands)
        (fun final =>
          final.ring.tailLogIndex = proc.server.ring.tailLogIndex ∧
              final.ringPart = proc.server.ringPart ∨
            proc.server.Appends final
              (clientEntries proc.server.raft.currentTerm sink commands))
        (fun _ => False) := by
    refine (wp_discard _).mpr (wp_mono
      (applyCommands_appends writable sentinel sink commands) ?_
      fun _ _ never => never)
    rintro _ final (rfl | appends)
    · exact Or.inl ⟨rfl, rfl⟩
    · exact Or.inr appends.ofOutcomes
  have noRestart :
      ∀ kernel cacheLost, Act.apply sink commands ≠ .restart kernel cacheLost :=
    fun _ _ => Act.noConfusion
  rcases Process.step_ends spec stepped noRestart with
    unchanged | returned | ⟨threw, -⟩
  · rw [unchanged]
    exact Or.inl ⟨rfl, rfl⟩
  · exact returned
  · exact threw.elim

/--
What a step of a leadership does to the terms in memory: it adds own terms at
the end, or removes terms at the front.
-/
theorem Process.step_terms
    {proc : Process}
    {input : Input}
    {result : Process × Outputs}
    (does : proc.Does input.act result)
    (inside : oneLeadership proc input = true)
    (leads : proc.main.leads = true)
    (leader : proc.server.raft.state = .leader)
    (sentinel : 0 < proc.server.raft.log.length) :
    result.1.server.view.log.drop 1 <:+
      proc.server.view.log.drop 1 ++
        List.replicate
          (result.1.server.ring.tailLogIndex -
            proc.server.ring.tailLogIndex)
          proc.server.raft.currentTerm := by
  have held : 0 < proc.server.view.log.length := by
    simpa [Server.view] using sentinel
  have effect := Node.Step.logEffect does
  have ends :
      ∀ added,
        result.1.node.view.log = proc.server.view.log ++ added →
        result.1.server.view.log.drop 1 =
          proc.server.view.log.drop 1 ++ added := by
    intro added same
    have log : result.1.server.view.log = _ := same
    rw [log, List.drop_append_of_le_length held]
  unfold oneLeadership at inside
  generalize input.act = act at effect inside
  cases effect with
  | kept same =>
      have tail : result.1.server.ring.tailLogIndex =
          proc.server.ring.tailLogIndex :=
        same.tail
      rw [ends [] (same.log.trans (List.append_nil _).symm), tail,
        Nat.sub_self]
      exact List.suffix_refl _
  | won pc _ _ _ =>
      have here : proc.main = .becomeLeader := pc
      rw [here] at leads
      cases leads
  | pushed _ viewed =>
      have tail : result.1.server.ring.tailLogIndex = _ :=
        congrArg View.tail viewed
      rw [ends _ (congrArg View.log viewed), tail]
      show _ <:+ _ ++ List.replicate
        (proc.server.ring.tailLogIndex + _ - proc.server.ring.tailLogIndex) _
      rw [Nat.add_sub_cancel_left]
      exact List.suffix_refl _
  | @completed src req _ accepts _ _ _ =>
      have low : req.term ≤ proc.server.view.term := of_decide_eq_true inside
      have role : (proc.server.view.meet req.term).role = .leader := by
        rw [View.meet, View.bump_of_le low, View.stepDown,
          if_neg fun candidate => by simp [Server.view, leader] at candidate]
        exact leader
      cases role.symm.trans accepts.follower
  | finished _ _ =>
      cases inside
  | @trimmed removed _ _ viewed =>
      have log : result.1.server.view.log = _ := congrArg View.log viewed
      have tail : result.1.server.ring.tailLogIndex =
          proc.server.ring.tailLogIndex :=
        congrArg View.tail viewed
      have front : (proc.server.view.log.take 1).length = 1 := by
        rw [List.length_take]
        omega
      rw [tail, Nat.sub_self, List.replicate_zero, List.append_nil, log]
      show (proc.server.view.log.take 1 ++
        proc.server.view.log.drop (1 + removed)).drop 1 <:+ _
      rw [List.drop_append_of_le_length front.ge,
        List.drop_eq_nil_of_le front.le, List.nil_append, ← List.drop_drop]
      exact List.drop_suffix _ _
  | restarted _ =>
      cases inside
  | restartThrew _ _ =>
      cases inside

/-- A leader whose records have the slots of the placed entries. -/
structure Process.Records
    (proc : Process)
    (layout : RingLayout)
    (placed : List (Entry × Nat)) : Prop where
  recalls :
    proc.Recalls layout 1 (placed.map fun item => item.1.command)
  starts :
    ∀ logIdx record,
      proc.server.ring.logSlotMap.lookup logIdx = some record →
      ∃ entry, placed[logIdx - 1]? = some (entry, record.start)
  short : proc.server.raft.log.length ≤ placed.length + 1
  /-- The terms in memory, behind the sentinel, are the last ones placed. -/
  terms :
    proc.server.view.log.drop 1 <:+ placed.map fun item => item.1.term

section

variable {proc : Process} {input : Input} {result : Process × Outputs}
variable {layout : RingLayout} {placed : List (Entry × Nat)}
variable (tiled : Tiles 0 layout.extents)
variable (records : proc.Records layout placed)
variable (inside : soundLeadership proc input = true)
variable (stepped : proc.step input.outcomes input.act = some result)

theorem appendedSince_length
    {before after : Server}
    (leader : after.raft.state = .leader) :
    (after.appendedSince before).length =
      after.ring.tailLogIndex - before.ring.tailLogIndex := by
  rw [Server.appendedSince, if_pos leader, List.length_map,
    List.length_range]

/-- A step that leaves the tail index alone has placed nothing. -/
theorem appendedSince_of_tail
    {before after : Server}
    (same : after.ring.tailLogIndex = before.ring.tailLogIndex) :
    after.appendedSince before = [] := by
  rw [Server.appendedSince, same, Nat.sub_self]
  exact ite_self _

include records inside stepped in
/--
The terms in memory are those before, and the leader's for each new entry.
-/
theorem Process.Records.step_terms :
    result.1.server.view.log.drop 1 <:+
      proc.server.view.log.drop 1 ++
        List.replicate
          (result.1.server.ring.tailLogIndex -
            proc.server.ring.tailLogIndex)
          proc.server.raft.currentTerm := by
  have chaining := records.recalls.chaining
  exact Process.step_terms (Process.step_does chaining.wellformed stepped)
    (Bool.and_eq_true_iff.mp inside).1 chaining.leads chaining.chain.leader
    records.recalls.entries.sentinel

include tiled records inside stepped

/-- A step of the leadership that appends nothing. -/
theorem Process.Records.still
    (nothing : proc.newCommands input = [])
    (small : placed.length + 1 < 2 ^ 64) :
    result.1.server.appendedSince proc.server = [] ∧
      result.1.Records layout placed := by
  have advanced : proc.advance input = some result.1 :=
    Option.map_eq_some_iff.mpr ⟨result, stepped, rfl⟩
  have short := records.short
  obtain ⟨recalls, length⟩ := records.recalls.goesOn tiled inside stepped
    (by omega) advanced
  rw [nothing, List.append_nil] at recalls
  rw [nothing, List.length_nil, Nat.add_zero] at length
  have tail :
      result.1.server.ring.tailLogIndex = proc.server.ring.tailLogIndex :=
    recalls.entries.tail.trans records.recalls.entries.tail.symm
  have change := records.recalls.chaining.changes tiled inside stepped
  refine ⟨appendedSince_of_tail tail, recalls, ?_, by omega, ?_⟩
  · intro logIdx record held
    exact records.starts logIdx record (change.lookup tail held)
  · have terms := records.step_terms inside stepped
    rw [tail, Nat.sub_self, List.replicate_zero, List.append_nil] at terms
    exact terms.trans records.terms

/-- The step of a client request that is taken. -/
theorem Process.Records.appended
    {sink : Nat}
    {commands : List (List UInt8)}
    (act : input.act = .apply sink commands)
    (appends :
      proc.server.Appends result.1.server
        (clientEntries proc.server.raft.currentTerm sink commands))
    (holds : HoldsPlaced proc.server.io.file placed)
    (small :
      (placed ++ result.1.server.appendedSince proc.server).length + 1 <
        2 ^ 64) :
    result.1.Records layout
        (placed ++ result.1.server.appendedSince proc.server) ∧
      HoldsPlaced result.1.server.io.file
        (placed ++ result.1.server.appendedSince proc.server) := by
  have advanced : proc.advance input = some result.1 :=
    Option.map_eq_some_iff.mpr ⟨result, stepped, rfl⟩
  have count :
      (clientEntries proc.server.raft.currentTerm sink commands).length =
        commands.length :=
    List.length_map _
  have tail := appends.tail
  rw [count] at tail
  have old : proc.server.ring.tailLogIndex = 1 + placed.length := by
    have upto : proc.server.ring.tailLogIndex = _ :=
      records.recalls.entries.tail
    rwa [List.length_map] at upto
  rw [List.length_append, appendedSince_length appends.leader, tail,
    Nat.add_sub_cancel_left] at small
  have short := records.short
  obtain ⟨recalls, length⟩ := records.recalls.goesOn tiled inside stepped
    (by omega) advanced
  rw [newCommands_of_apply act advanced tail] at recalls length
  rw [appends.appendedSince (by omega)]
  have added :
      (proc.server.placing
        (clientEntries proc.server.raft.currentTerm sink commands)).map
          (fun item => item.1.command) = commands := by
    have entries : ∀ items : List (Entry × Nat),
        items.map (fun item => item.1.command) =
          (items.map Prod.fst).map Entry.command :=
      fun items => (List.map_map).symm
    rw [entries, placing_entries, clientEntries, List.map_map]
    exact List.map_id _
  have terms := records.step_terms inside stepped
  rw [tail, Nat.add_sub_cancel_left] at terms
  refine ⟨⟨?_, ?_, ?_, ?_⟩, holds.append fun position behind => ?_⟩
  · rw [List.map_append, added]
    exact recalls
  · intro logIdx record held
    by_cases earlier : logIdx < proc.server.ring.tailLogIndex
    · obtain ⟨before, found, start⟩ :=
        appends.older logIdx record earlier held
      obtain ⟨entry, inPlaced⟩ := records.starts logIdx before found
      have position := (List.getElem?_eq_some_iff.mp inPlaced).1
      refine ⟨entry, ?_⟩
      rw [List.getElem?_append_left position, inPlaced, start]
    · obtain ⟨position, command, index, found, -⟩ :=
        recalls.records logIdx record held
      have within := (List.getElem?_eq_some_iff.mp found).1
      rw [List.length_append, List.length_map] at within
      obtain ⟨⟨entry, start⟩, new⟩ :
          ∃ item,
            (proc.server.placing
              (clientEntries proc.server.raft.currentTerm sink
                commands))[position - placed.length]? = some item :=
        ⟨_, List.getElem?_eq_getElem (by
          rw [placing_length, count]
          omega)⟩
      have recorded := appends.recorded _ entry start new
      have same :
          proc.server.ring.tailLogIndex + (position - placed.length) =
            logIdx := by
        omega
      rw [same, held, Option.some.injEq] at recorded
      refine ⟨entry, ?_⟩
      rw [List.getElem?_append_right (by omega), recorded, ← new]
      congr 1
      omega
  · rw [List.length_append, placing_length, count]
    omega
  · obtain ⟨front, split⟩ := records.terms
    rw [List.map_append, placing_terms, clientEntries_terms, ← split,
      List.append_assoc]
    exact terms.trans (List.suffix_append _ _)
  · rw [appends.ringPart position behind, old, Nat.add_comm 1]

/-- One step of a leadership goes on with the records and the image. -/
theorem Process.Records.goesOn
    (holds : HoldsPlaced proc.server.io.file placed)
    (small :
      (placed ++ result.1.server.appendedSince proc.server).length + 1 <
        2 ^ 64) :
    result.1.Records layout
        (placed ++ result.1.server.appendedSince proc.server) ∧
      HoldsPlaced result.1.server.io.file
        (placed ++ result.1.server.appendedSince proc.server) := by
  have advanced : proc.advance input = some result.1 :=
    Option.map_eq_some_iff.mpr ⟨result, stepped, rfl⟩
  have small' : placed.length + 1 < 2 ^ 64 := by
    rw [List.length_append] at small
    omega
  have quiet :
      proc.newCommands input = [] →
      result.1.server.ringPart = proc.server.ringPart →
      result.1.Records layout
          (placed ++ result.1.server.appendedSince proc.server) ∧
        HoldsPlaced result.1.server.io.file
          (placed ++ result.1.server.appendedSince proc.server) := by
    intro nothing same
    obtain ⟨none, still⟩ :=
      records.still tiled inside stepped nothing small'
    rw [none, List.append_nil]
    exact ⟨still, holds.of_ringPart same⟩
  have noRestart := noRestart_of_soundLeadership inside
  by_cases applies : ∃ sink commands, input.act = .apply sink commands
  · obtain ⟨sink, commands, act⟩ := applies
    have stepped' := stepped
    rw [act] at stepped'
    rcases Process.step_apply
        (records.recalls.chaining.writable tiled inside)
        records.recalls.entries.sentinel stepped' with
      ⟨tail, same⟩ | appends
    · exact quiet (newCommands_of_tail advanced tail) same
    · exact records.appended tiled inside stepped act appends holds small
  · refine quiet ?_ ?_
    · unfold Process.newCommands
      split
      · rename_i sink commands act
        exact absurd ⟨sink, commands, act⟩ applies
      · rfl
    · refine Process.step_unled ringPart_unaffected (fun _ _ => rfl) stepped
        noRestart ?_ (fun sink commands act => ?_)
        fun _ => collectGarbage_ringPart _
      · have leads : proc.node.main.leads = true :=
          records.recalls.chaining.leads
        exact (Node.leads_quiet leads input.act).2
      · exact absurd ⟨sink, commands, act⟩ applies

end

/-- The first leader records and writes its no-op entry. -/
theorem Process.Records.of_election
    {candidate : Process}
    {election : Input}
    {result : Process × Outputs}
    (started : candidate.Started)
    (wins : candidate.node.wins election.act = true)
    (succeed : election.outcomes.succeed = true)
    (stepped :
      candidate.step election.outcomes election.act = some result)
    (tiled : Tiles 0 candidate.server.io.extents)
    (noRecords : candidate.server.ring.logSlotMap.entries = [])
    (tail : candidate.server.ring.tailLogIndex = 1)
    (length : candidate.server.raft.log.length = 1) :
    result.1.server.appendedSince candidate.server ≠ [] ∧
      result.1.Records candidate.server.layout
          (result.1.server.appendedSince candidate.server) ∧
        HoldsPlaced result.1.server.io.file
          (result.1.server.appendedSince candidate.server) := by
  have elected : candidate.advance election = some result.1 :=
    Option.map_eq_some_iff.mpr ⟨result, stepped, rfl⟩
  have recalls := Process.Recalls.of_election started wins succeed elected
    tiled (.of_noRecords started wins succeed elected tiled noRecords)
  obtain ⟨-, noOp, empty, appends⟩ :=
    @Process.elected_wp _ _ _
      (fun server => ∃ noOp : Entry,
        noOp.command = [] ∧ candidate.server.Appends server [noOp])
      started.wellformed wins elected
      fun _ load _ _ sentinel won =>
        wp_mono (becomeLeader_appends load succeed sentinel won)
          (fun _ _ ⟨_, noOp, empty, appends⟩ => ⟨noOp, empty,
            appends.ofOutcomes⟩) fun _ _ never => never
  obtain ⟨front, log, sameLength⟩ := appends.log
  have grown : result.1.server.raft.log.length = 2 := by
    rw [log, List.length_append, sameLength, length]
    rfl
  have slot :
      ∃ start, candidate.server.placing [noOp] = [(noOp, start)] :=
    ⟨_, rfl⟩
  obtain ⟨start, placing⟩ := slot
  rw [appends.appendedSince (by omega), placing]
  refine ⟨List.cons_ne_nil _ _, ⟨?_, ?_, by rw [grown]; rfl, ?_⟩, ?_⟩
  · rw [tail, List.nil_append] at recalls
    rw [List.map_singleton, empty]
    exact recalls
  · intro logIdx record held
    obtain ⟨position, command, index, found, -⟩ :=
      recalls.records logIdx record held
    have within := (List.getElem?_eq_some_iff.mp found).1
    rw [List.length_append, List.length_nil, List.length_singleton] at within
    have recorded := appends.recorded 0 noOp start (by rw [placing]; rfl)
    have same : candidate.server.ring.tailLogIndex + 0 = logIdx := by
      omega
    rw [same, held, Option.some.injEq] at recorded
    refine ⟨noOp, ?_⟩
    rw [recorded, ← same, tail]
    rfl
  · have viewed :
        result.1.server.view.log = (front ++ [noOp]).map Entry.term :=
      congrArg (List.map Entry.term) log
    rw [viewed, List.map_append, List.drop_append_of_le_length (by
      rw [List.length_map]
      omega), List.drop_eq_nil_of_le (by
      rw [List.length_map]
      omega)]
    exact List.suffix_refl _
  · exact @HoldsPlaced.append _ result.1.server.io.file _ [(noOp, start)]
      (holdsPlaced_nil candidate.server.io.file) fun position behind => by
        rw [appends.ringPart position behind, tail, placing]
        rfl

end NvmeofRaft
