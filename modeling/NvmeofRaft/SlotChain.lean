import NvmeofRaft.ApplyOrder
import NvmeofRaft.RingAllocator

namespace NvmeofRaft

/-!
# The chain of slot records

Over one leadership whose I/O calls succeed, the slot records are those of the
last entries of the log, each placed where `persist_circular` goes on behind
the one before it.
-/

/--
The records are those of the indices from some index above `gc_up_to` up to
`upto`, each placed behind the one before it, and the tail slot is the end of
the last one.
-/
structure RingView.Chained
    (view : RingView)
    (upto : Nat) : Prop where
  range :
    ∀ logIdx record,
      view.slots.lookup logIdx = some record →
      view.gcUpTo < logIdx ∧ logIdx < upto
  next :
    ∀ logIdx record,
      view.slots.lookup logIdx = some record →
      logIdx + 1 < upto →
      ∃ later,
        view.slots.lookup (logIdx + 1) = some later ∧
          later.start =
            nextSlot view.ringSlots view.extents
              (record.start + record.numSlots) later.numSlots
  last :
    ∀ logIdx record,
      view.slots.lookup logIdx = some record →
      logIdx + 1 = upto →
      view.tailSlot = record.start + record.numSlots

namespace RingView

variable {view : RingView} {upto : Nat}

/-- Without records there is nothing to chain. -/
theorem chained_of_empty
    (empty : ∀ logIdx, view.slots.lookup logIdx = none)
    (upto : Nat) :
    view.Chained upto := by
  have never :
      ∀ {logIdx record}, view.slots.lookup logIdx ≠ some record := by
    intro logIdx record held
    rw [empty] at held
    cases held
  exact ⟨fun _ _ held => absurd held never,
    fun _ _ held => absurd held never, fun _ _ held => absurd held never⟩

/-- Placing one entry extends the chain. -/
theorem Chained.place
    (chained : view.Chained upto)
    (below : view.gcUpTo < upto)
    (needed : Nat) :
    (view.place upto needed).Chained (upto + 1) := by
  have older :
      ∀ {logIdx record},
        (view.place upto needed).slots.lookup logIdx = some record →
        logIdx ≠ upto →
        view.slots.lookup logIdx = some record := by
    intro logIdx record held other
    rwa [RingView.place, AList.lookup_insert_ne other] at held
  have newest :
      (view.place upto needed).slots.lookup upto =
        some {
          start := view.nextStart needed
          numSlots := needed
          state := .using } :=
    AList.lookup_insert _
  refine ⟨?_, ?_, ?_⟩
  · intro logIdx record held
    by_cases same : logIdx = upto
    · subst same
      exact ⟨below, Nat.lt_succ_self _⟩
    · obtain ⟨above, inside⟩ := chained.range _ _ (older held same)
      exact ⟨above, Nat.lt_succ_of_lt inside⟩
  · intro logIdx record held inside
    have early := older held (by omega)
    rcases Nat.lt_or_eq_of_le (Nat.le_of_lt_succ inside) with further | final
    · obtain ⟨later, found, starts⟩ := chained.next _ _ early further
      refine ⟨later, ?_, starts⟩
      rw [RingView.place, AList.lookup_insert_ne (by omega)]
      exact found
    · rw [final]
      refine ⟨_, newest, ?_⟩
      show view.nextStart needed = _
      rw [RingView.nextStart, chained.last _ _ early final]
      rfl
  · intro logIdx record held final
    obtain rfl : logIdx = upto := by omega
    rw [newest, Option.some.injEq] at held
    rw [← held]
    rfl

/-- Entries that are placed one behind the other extend the chain. -/
theorem Chained.placeAll
    (needs : List Nat) :
    ∀ {view : RingView} {upto : Nat},
      view.Chained upto →
      view.gcUpTo < upto →
      (view.placeAll upto needs).Chained (upto + needs.length) ∧
        (view.placeAll upto needs).gcUpTo = view.gcUpTo := by
  induction needs with
  | nil =>
      intro view upto chained below
      exact ⟨chained, rfl⟩
  | cons needed rest inductionHypothesis =>
      intro view upto chained below
      obtain ⟨placed, same⟩ := inductionHypothesis (chained.place below needed)
        (Nat.lt_succ_of_lt below)
      rw [List.length_cons, Nat.add_comm rest.length, ← Nat.add_assoc]
      exact ⟨placed, same⟩

/-- The chain does not mention the tail index. -/
theorem Chained.withTail
    (chained : view.Chained upto)
    (tail : Nat) :
    (view.withTail tail).Chained upto :=
  ⟨chained.range, chained.next, chained.last⟩

end RingView

/-- The erase loop keeps what it does not pass. -/
theorem lookup_eraseSlots_outside :
    ∀ (count first : Nat) (slots : SlotMap) (logIdx : Nat),
      logIdx < first ∨ first + count ≤ logIdx →
      (eraseSlots count first slots).lookup logIdx = slots.lookup logIdx := by
  intro count
  induction count with
  | zero =>
      intro first slots logIdx outside
      rfl
  | succ count inductionHypothesis =>
      intro first slots logIdx outside
      rw [eraseSlots, inductionHypothesis _ _ _ (by omega),
        AList.lookup_erase_ne (by omega)]

/-- Collecting up to an index cuts the chain there. -/
theorem RingView.Chained.collect
    {view : RingView}
    {upto : Nat}
    (chained : view.Chained upto)
    (minMatch : Nat) :
    { view with
      slots := eraseSlots (minMatch - view.gcUpTo) (view.gcUpTo + 1)
        view.slots
      gcUpTo := minMatch }.Chained upto := by
  have older :
      ∀ {logIdx record},
        (eraseSlots (minMatch - view.gcUpTo) (view.gcUpTo + 1)
          view.slots).lookup logIdx = some record →
        view.slots.lookup logIdx = some record ∧ minMatch < logIdx := by
    intro logIdx record held
    obtain ⟨early, outside⟩ := lookup_eraseSlots _ _ _ _ _ held
    have above := (chained.range _ _ early).1
    exact ⟨early, by omega⟩
  refine ⟨?_, ?_, ?_⟩
  · intro logIdx record held
    obtain ⟨early, above⟩ := older held
    exact ⟨above, (chained.range _ _ early).2⟩
  · intro logIdx record held inside
    obtain ⟨early, above⟩ := older held
    have behind := (chained.range _ _ early).1
    obtain ⟨later, found, starts⟩ := chained.next _ _ early inside
    refine ⟨later, ?_, starts⟩
    dsimp only
    rw [lookup_eraseSlots_outside _ _ _ _ (by omega)]
    exact found
  · intro logIdx record held final
    exact chained.last _ _ (older held).1 final

theorem signalCommittedFrom_ringView :
    ∀ count logIdx (server : Server),
      (signalCommittedFrom count logIdx server).ringView =
        server.ringView := by
  intro count logIdx server
  obtain ⟨log, same⟩ := signalCommittedFrom_only count logIdx server
  rw [same]
  rfl

theorem applyPendingLoop_ringView
    (oldest : Nat) :
    ∀ bound (server : Server),
      (applyPendingLoop oldest bound server).ringView =
        server.ringView := by
  intro bound server
  obtain ⟨log, lastApplied, statemachine, results, same⟩ :=
    applyPendingLoop_only oldest bound server
  rw [same]
  rfl

theorem bookAnswer_ringView
    (server : Server)
    (fi : Nat)
    (call : AppendCall)
    (answer : Option AppendEntriesResponse) :
    (server.bookAnswer fi call answer).ringView = server.ringView := by
  obtain ⟨cluster, same⟩ := bookAnswer_only server fi call answer
  rw [same]
  rfl

theorem persistHeaderOnly_ringView :
    Frames Server.ringView (persistCircular false 0) :=
  persistHeaderOnly_besidesFile.coarsen Server.ringView fun _ => rfl

theorem updateTerm_ringView
    (msgTerm : Nat) :
    Frames Server.ringView (updateTerm msgTerm) := by
  refine Frames.bind Frames.get fun server => Frames.ite ?_ (Frames.pure _)
  exact Frames.bind (Frames.modifyState fun _ => rfl) fun _ =>
    Frames.bind persistHeaderOnly_ringView fun _ => Frames.pure _

theorem requestVoteReply_ringView
    (peerIndex : Nat)
    (req : RequestVoteRequest)
    (rsp : RequestVoteResponse) :
    Frames Server.ringView (requestVoteReply peerIndex req rsp) := by
  refine Frames.bind (updateTerm_ringView _) fun bumped => ?_
  refine Frames.ite (Frames.pure _) (Frames.ite (Frames.pure _) ?_)
  exact Frames.ite (Frames.modifyState fun _ => rfl) (Frames.pure _)

theorem handleRequestVoteRequest_ringView
    (req : RequestVoteRequest) :
    Frames Server.ringView (handleRequestVoteRequest req) := by
  refine Frames.bind (updateTerm_ringView _).discard fun _ => ?_
  refine Frames.bind Frames.get fun server => ?_
  refine Frames.ite (Frames.pure _) (Frames.ite ?_ (Frames.pure _))
  exact Frames.bind (Frames.modifyState fun _ => rfl) fun _ =>
    Frames.bind persistHeaderOnly_ringView fun _ => Frames.pure _

theorem appendEntriesSend_ringView
    (fi : Nat) :
    Frames Server.ringView (appendEntriesSend fi) := by
  refine Frames.bind (Frames.modifyState fun _ => rfl) fun _ => ?_
  refine Frames.bind Frames.get fun server => ?_
  refine Frames.ite (Frames.pure _) ?_
  refine Frames.bind (planRound_frames _ _) fun plan => ?_
  refine Frames.ite ?_ (Frames.pure _)
  exact Frames.bind (Frames.modifyState fun _ => rfl) fun _ => Frames.pure _

theorem advanceCommitIndex_ringView :
    Frames Server.ringView advanceCommitIndex := by
  refine Frames.bind Frames.get fun server => Frames.ite ?_ (Frames.pure _)
  exact Frames.modifyState fun _ => signalCommittedFrom_ringView _ _ _

theorem applyPending_ringView :
    Frames Server.ringView applyPending := by
  refine Frames.modifyState fun server => ?_
  unfold Server.applyCommitted
  split
  · exact applyPendingLoop_ringView _ _ server
  · rfl

theorem appendEntriesReply_ringView
    (fi : Nat)
    (call : AppendCall)
    (answer : Option AppendEntriesResponse) :
    Frames Server.ringView (appendEntriesReply fi call answer) :=
  Frames.modifyState fun server => bookAnswer_ringView server fi call answer

/-- A leader answers an append request of no higher term and does no more. -/
theorem handleAppendEntriesRequest_refused
    {req : AppendEntriesRequest}
    {server : Server}
    (leader : server.raft.state = .leader)
    (low : req.term ≤ server.raft.currentTerm) :
    wp (handleAppendEntriesRequest req)
      (fun _ final => final = server) (fun _ _ => False) server := by
  have notDown : server.stepDown req = server := by
    rw [Server.stepDown, if_neg fun candidate => by simp [leader] at candidate]
  simp only [handleAppendEntriesRequest, updateTerm, wp_bind, wp_discard,
    wp_get, wp_ite, wp_pure, wp_modify, if_neg (Nat.not_lt.mpr low), notDown,
    leader]
  simp

/-- A client's commands move the tail index; their slots come later. -/
theorem appendCommands_ringView
    (sink : Nat) :
    ∀ (commands : List (List UInt8)) (server : Server),
      (server.appendCommands sink commands).ringView =
          server.ringView.withTail
            (server.ring.tailLogIndex + commands.length) ∧
        (server.appendCommands sink commands).io = server.io := by
  intro commands
  induction commands with
  | nil =>
      intro server
      exact ⟨rfl, rfl⟩
  | cons command rest inductionHypothesis =>
      intro server
      obtain ⟨ring, io⟩ := inductionHypothesis (server.pushEntry {
        command
        term := server.raft.currentTerm
        resultSink := some sink })
      refine ⟨ring.trans ?_, io⟩
      rw [List.length_cons, Nat.add_comm rest.length, ← Nat.add_assoc]
      rfl

/-- The last entries of a log that has just grown are the new ones. -/
theorem lastNeeds_of_append
    {server : Server}
    {log entries : List Entry}
    (sentinel : 0 < log.length)
    (grown : server.raft.log = log ++ entries) :
    server.lastNeeds entries.length =
      entries.map fun entry => slotsForEntry entry.command.length := by
  have position :
      max 1 (server.raft.log.length - entries.length) = log.length := by
    rw [grown, List.length_append]
    omega
  rw [Server.lastNeeds, position, grown, List.drop_left]

theorem appendCommands_log
    (server : Server)
    (sink : Nat)
    (commands : List (List UInt8)) :
    (server.appendCommands sink commands).raft.log =
      server.raft.log ++
        clientEntries server.raft.currentTerm sink commands :=
  congrArg EntryView.log (appendCommands_entryView sink commands server)

section

variable {server : Server} {commands : List (List UInt8)}
variable (sentinel : 0 < server.raft.log.length)

include sentinel

/-- The last entries behind an append are those of the commands. -/
theorem appendCommands_lastNeeds
    (sink : Nat) :
    (server.appendCommands sink commands).lastNeeds commands.length =
      commands.map fun command : List UInt8 =>
        slotsForEntry command.length := by
  have log := appendCommands_log server sink commands
  have count :
      (clientEntries server.raft.currentTerm sink commands).length =
        commands.length :=
    List.length_map _
  rw [← count, lastNeeds_of_append sentinel log, clientEntries, List.map_map]
  rfl

/-- They are persisted from the old tail index on. -/
theorem appendCommands_firstPersisted
    (sink : Nat) :
    (server.appendCommands sink commands).firstPersisted commands.length =
      server.ring.tailLogIndex := by
  have log := appendCommands_log server sink commands
  have count :
      (clientEntries server.raft.currentTerm sink commands).length =
        commands.length :=
    List.length_map _
  have tail :
      (server.appendCommands sink commands).ring.tailLogIndex =
        server.ring.tailLogIndex + commands.length :=
    congrArg RingView.tail (appendCommands_ringView sink commands server).1
  rw [Server.firstPersisted, log, List.length_append, count, tail,
    sub64_of_le (by omega)]
  omega

end

section

variable {server : Server} {commands : List (List UInt8)}
variable (writable : server.Writable)
variable (sentinel : 0 < server.raft.log.length)

include writable sentinel

/-- An admitted batch is placed behind the tail slot. -/
theorem applyCommands_places
    (sink : Nat)
    (some : commands ≠ [])
    (admitted : canWriteAll server.ring commands = true) :
    wp (applyCommands sink commands)
      (fun _ final =>
        final.ringView =
          (server.ringView.withTail
            (server.ring.tailLogIndex + commands.length)).placeAll
              server.ring.tailLogIndex
              (commands.map fun command : List UInt8 =>
                slotsForEntry command.length))
      (fun _ _ => False) server := by
  obtain ⟨ring, io⟩ := appendCommands_ringView sink commands server
  have pushed := appendCommands_entryView sink commands server
  have ready : (server.appendCommands sink commands).Writable := by
    refine ⟨?_, io ▸ writable.succeed, io ▸ writable.tiled⟩
    exact (congrArg EntryView.role pushed).trans writable.leader
  have leader := writable.leader
  simp only [applyCommands, wp_bind, wp_get, wp_ite, wp_pure, wp_modify,
    wp_tryCatch, List.isEmpty_iff, some, if_false, leader, ne_eq,
    not_true_eq_false, admitted, Bool.not_true, Bool.false_eq_true]
  refine wp_mono
    (persistCircular_ring ready (List.length_pos_of_ne_nil some)) ?_
    fun _ _ never => never.elim
  rintro _ final ⟨placed, -⟩
  rw [placed, appendCommands_firstPersisted sentinel,
    appendCommands_lastNeeds sentinel, ring]

/-- A client call either changes nothing or places all its entries. -/
theorem applyCommands_ring
    (sink : Nat) :
    wp (applyCommands sink commands)
      (fun _ final =>
        final.ringView = server.ringView ∨
          canWriteAll server.ring commands = true ∧
            final.ringView =
              (server.ringView.withTail
                (server.ring.tailLogIndex + commands.length)).placeAll
                  server.ring.tailLogIndex
                  (commands.map fun command : List UInt8 =>
                    slotsForEntry command.length))
      (fun _ _ => False) server := by
  by_cases taken : commands ≠ [] ∧ canWriteAll server.ring commands = true
  · obtain ⟨some, admitted⟩ := taken
    exact wp_mono (applyCommands_places writable sentinel sink some admitted)
      (fun _ _ placed => Or.inr ⟨admitted, placed⟩) fun _ _ never => never
  · simp only [applyCommands, wp_bind, wp_get, wp_ite, wp_pure, wp_modify,
      wp_tryCatch]
    split_ifs with empty follower full
    · exact Or.inl trivial
    · exact Or.inl trivial
    · exact Or.inl trivial
    · exact absurd ⟨by simpa using empty, by simpa using full⟩ taken

end

/-- A leader's garbage collection cuts the records at `min_match`. -/
theorem collectGarbage_ringView
    {server : Server}
    (leader : server.raft.state = .leader) :
    server.collectGarbage.ringView =
      { server.ringView with
        slots := eraseSlots (server.minMatch - server.ring.gcUpTo)
          (server.ring.gcUpTo + 1) server.ring.logSlotMap
        gcUpTo := server.minMatch } := by
  have freed :
      { server with
        ring := server.ring.freeSlots server.minMatch }.ringView =
        { server.ringView with
          slots := eraseSlots (server.minMatch - server.ring.gcUpTo)
            (server.ring.gcUpTo + 1) server.ring.logSlotMap
          gcUpTo := server.minMatch } := by
    obtain ⟨headSlot, same⟩ := freeSlots_only server.ring server.minMatch
    rw [same]
    rfl
  obtain ⟨log, trimmed⟩ := trimLogLocked_only server.minMatch
    { server with ring := server.ring.freeSlots server.minMatch }
  rw [Server.collectGarbage, if_pos leader, trimmed, ← freed]
  rfl

theorem applyLoaded_ringView
    (oldest : Nat) :
    ∀ bound (server : Server),
      (applyLoaded oldest bound server).ringView = server.ringView ∧
        (applyLoaded oldest bound server).io = server.io := by
  intro bound server
  obtain ⟨lastApplied, statemachine, same⟩ :=
    applyLoaded_only oldest bound server
  rw [same]
  exact ⟨rfl, rfl⟩

/-- A new leader marks the records it has as used. -/
theorem promote_ringView
    (server : Server)
    (load : Nat → Option (List UInt8)) :
    (server.promote load).ringView =
        { server.ringView with
          slots := server.ring.logSlotMap.markUsing
          gcUpTo := 0
          tail := server.ring.tailLogIndex + 1 } ∧
      (server.promote load).io = server.io := by
  obtain ⟨headSlot, same⟩ := recomputeHeadSlot_only
    { server.ring with logSlotMap := server.ring.logSlotMap.markUsing }
  have lead :
      server.takeLead.ringView =
        { server.ringView with
          slots := server.ring.logSlotMap.markUsing
          gcUpTo := 0 } := by
    unfold Server.takeLead rebuildSlotStatesFromMap
    rw [same]
    rfl
  obtain ⟨ring, io⟩ := applyLoaded_ringView
    (server.takeLead.loadDeferredEntries load).oldestLogIndex
    ((server.takeLead.loadDeferredEntries load).ring.tailLogIndex -
      (server.takeLead.loadDeferredEntries load).raft.lastApplied)
    (server.takeLead.loadDeferredEntries load)
  have ready :
      (server.takeLead.loadDeferredEntries load).applyLoadedEntries.ringView =
        { server.ringView with
          slots := server.ring.logSlotMap.markUsing
          gcUpTo := 0 } :=
    ring.trans lead
  refine ⟨?_, io⟩
  have pushed :
      (server.promote load).ringView =
        { (server.takeLead.loadDeferredEntries
            load).applyLoadedEntries.ringView with
          tail := (server.takeLead.loadDeferredEntries
            load).applyLoadedEntries.ringView.tail + 1 } :=
    rfl
  rw [pushed, ready]
  rfl

/-- A leader whose slot records form a chain up to its tail. -/
structure Server.LeadsChain
    (server : Server)
    (extents : List Extent) : Prop where
  leader : server.raft.state = .leader
  extents : server.ringView.extents = extents
  below : server.ringView.gcUpTo < server.ringView.tail
  chained : server.ringView.Chained server.ringView.tail

/-- The ring with which a candidate starts to lead. -/
def Server.markedView (server : Server) : RingView :=
  { server.ringView with
    slots := server.ring.logSlotMap.markUsing
    gcUpTo := 0 }

/-- A new leader appends its no-op entry. -/
theorem promote_appends
    (server : Server)
    (load : Nat → Option (List UInt8)) :
    (server.promote load).ring.tailLogIndex =
        server.ring.tailLogIndex + 1 ∧
      ∃ front noOp,
        (server.promote load).raft.log = front ++ [noOp] ∧
          front.length = server.raft.log.length ∧
            noOp.command = [] ∧ noOp.ringSlot = 0 := by
  obtain ⟨applied, -, viewed⟩ := promote_view server load
  have length :
      (server.promote load).raft.log.length =
        server.raft.log.length + 1 := by
    have grown := congrArg (fun view => view.log.length) viewed
    simpa [Server.view, View.promoted, View.push] using grown
  obtain ⟨front, noOp, log, noCommand, noSlot⟩ :
      ∃ front noOp,
        (server.promote load).raft.log = front ++ [noOp] ∧
          noOp.command = [] ∧ noOp.ringSlot = 0 :=
    ⟨_, _, rfl, rfl, rfl⟩
  refine ⟨congrArg View.tail viewed, front, noOp, log, ?_, noCommand, noSlot⟩
  rw [log, List.length_append] at length
  exact Nat.succ.inj length

/-- A new leader places its no-op entry. -/
theorem becomeLeader_places
    (load : Nat → Option (List UInt8))
    {server : Server}
    (succeed : server.io.outcomes.succeed = true)
    (tiled : Tiles 0 server.io.extents)
    (sentinel : 0 < server.raft.log.length)
    (won : server.quorumLeft = 0) :
    wp (becomeLeader load)
      (fun _ final =>
        final.raft.state = .leader ∧
          final.ringView =
            (server.markedView.withTail
              (server.ring.tailLogIndex + 1)).placeAll
                server.ring.tailLogIndex [slotsForEntry 0])
      (fun _ _ => False) server := by
  obtain ⟨ring, io⟩ := promote_ringView server load
  obtain ⟨applied, -, viewed⟩ := promote_view server load
  have role : (server.promote load).raft.state = .leader :=
    congrArg View.role viewed
  have ready : (server.promote load).Writable :=
    ⟨role, io ▸ succeed, io ▸ tiled⟩
  obtain ⟨tail, front, noOp, log, length, noCommand, -⟩ :=
    promote_appends server load
  have first :
      (server.promote load).firstPersisted 1 =
        server.ring.tailLogIndex := by
    rw [Server.firstPersisted, log, tail, List.length_append, length,
      List.length_singleton, sub64_of_le (by omega)]
    omega
  have needs : (server.promote load).lastNeeds 1 = [slotsForEntry 0] := by
    have last := lastNeeds_of_append (length ▸ sentinel) log
    rw [List.map_singleton, noCommand] at last
    exact last
  simp only [becomeLeader, wp_bind, wp_get, wp_ite, wp_modify, wp_pure, won,
    if_true]
  refine wp_mono (persistCircular_ring ready Nat.one_pos) ?_
    fun _ _ never => never
  rintro _ final ⟨placed, writable⟩
  rw [first, needs, ring] at placed
  exact ⟨writable.leader, placed⟩

/-- Without slot records there is nothing to chain. -/
theorem markedView_chained
    {server : Server}
    (empty : server.ring.logSlotMap.entries = [])
    (upto : Nat) :
    server.markedView.Chained upto := by
  refine RingView.chained_of_empty (fun logIdx => ?_) upto
  show server.ring.logSlotMap.markUsing.lookup logIdx = none
  rw [lookup_markUsing, AList.lookup, empty]
  rfl

/-- An election won with a chain of slot records goes on with the chain. -/
theorem becomeLeader_ring
    (load : Nat → Option (List UInt8))
    {server : Server}
    (succeed : server.io.outcomes.succeed = true)
    (tiled : Tiles 0 server.io.extents)
    (sentinel : 0 < server.raft.log.length)
    (started : 0 < server.ring.tailLogIndex)
    (chained : server.markedView.Chained server.ring.tailLogIndex)
    (won : server.quorumLeft = 0) :
    wp (becomeLeader load)
      (fun _ final => final.LeadsChain server.io.extents)
      (fun _ _ => False) server := by
  refine wp_mono (becomeLeader_places load succeed tiled sentinel won) ?_
    fun _ _ never => never
  rintro _ final ⟨leader, placed⟩
  obtain ⟨longer, same⟩ :=
    (chained.withTail (server.ring.tailLogIndex + 1)).placeAll
      [slotsForEntry 0] started
  have sameTail :
      final.ringView.tail = server.ring.tailLogIndex + 1 := by
    rw [placed, RingView.placeAll_tail]
    rfl
  rw [← placed] at longer same
  refine ⟨leader, ?_, ?_, sameTail ▸ longer⟩
  · rw [placed, RingView.placeAll_extents]
    rfl
  · have collected : final.ringView.gcUpTo = 0 := same
    rw [collected, sameTail]
    exact Nat.lt_succ_of_lt started

/-- What a section does to the ring of a leader whose I/O calls succeed. -/
inductive Server.LeadershipChange
    (before : Server)
    (act : Act)
    (after : Server) : Prop where
  | kept :
      after.ringView = before.ringView →
      LeadershipChange before act after
  | admitted
      {sink : Nat}
      {commands : List (List UInt8)} :
      act = .apply sink commands →
      canWriteAll before.ring commands = true →
      after.ringView =
        (before.ringView.withTail
          (before.ring.tailLogIndex + commands.length)).placeAll
            before.ring.tailLogIndex
            (commands.map fun command : List UInt8 =>
              slotsForEntry command.length) →
      LeadershipChange before act after
  | collected :
      act = .slotGc →
      after.ringView =
        { before.ringView with
          slots := eraseSlots (before.minMatch - before.ring.gcUpTo)
            (before.ring.gcUpTo + 1) before.ring.logSlotMap
          gcUpTo := before.minMatch } →
      LeadershipChange before act after

/-- A change of the ring, whichever section makes it. -/
inductive Server.RingChange
    (before after : Server) : Prop where
  | kept :
      after.ringView = before.ringView →
      RingChange before after
  | appended
      {commands : List (List UInt8)} :
      after.ringView =
        (before.ringView.withTail
          (before.ring.tailLogIndex + commands.length)).placeAll
            before.ring.tailLogIndex
            (commands.map fun command : List UInt8 =>
              slotsForEntry command.length) →
      RingChange before after
  | collected :
      after.ringView =
        { before.ringView with
          slots := eraseSlots (before.minMatch - before.ring.gcUpTo)
            (before.ring.gcUpTo + 1) before.ring.logSlotMap
          gcUpTo := before.minMatch } →
      RingChange before after

/-- A change of leadership is a change of the ring. -/
theorem Server.LeadershipChange.ringChange
    {before after : Server}
    {act : Act}
    (change : before.LeadershipChange act after) :
    before.RingChange after := by
  cases change with
  | kept same => exact .kept same
  | admitted _ _ placed => exact .appended placed
  | collected _ cut => exact .collected cut

/--
The step belongs to the leadership under way (`oneLeadership`: in particular no
append handler from before the election finishes) and its I/O calls succeed.
-/
def soundLeadership
    (proc : Process)
    (input : Input) :
    Bool :=
  oneLeadership proc input && input.outcomes.succeed

section

variable {proc : Process} {input : Input}

/-- The main loop of a leader leaves the ring alone. -/
theorem mainBody_ring
    {expired : Bool}
    {load : Nat → Option (List UInt8)}
    {server : Server}
    (leads : proc.main.leads = true) :
    wp (proc.main.body expired load)
      (fun _ final => final.ringView = server.ringView)
      (fun _ final => final.ringView = server.ringView) server := by
  unfold MainPc.body
  split
  · exact advanceCommitIndex_ringView.ends server
  · rename_i pc
    rw [pc] at leads
    cases leads
  · rename_i pc
    rw [pc] at leads
    cases leads
  · rfl

/-- No thread but a finishing append handler changes the ring. -/
theorem threadBody_ring
    {act : Act}
    {thread : Thread}
    {server : Server}
    (notFinish : ∀ index copied, act ≠ .handleAppendFinish index copied) :
    wp (thread.body act)
      (fun _ final => final.ringView = server.ringView)
      (fun _ final => final.ringView = server.ringView) server := by
  unfold Thread.body
  split
  · exact (Frames.bind Frames.get fun _ => Frames.pure _).discard.ends server
  · exact (requestVoteReply_ringView _ _ _).ends server
  · exact (appendEntriesSend_ringView _).discard.ends server
  · exact (appendEntriesReply_ringView _ _ _).ends server
  · exact (appendEntriesReply_ringView _ _ _).ends server
  · exact (appendEntriesReply_ringView _ _ _).ends server
  · exact absurd rfl (notFinish _ _)
  · rfl

/-- Every section of a leadership changes the ring in one of these ways. -/
theorem body_ring
    {act : Act}
    {server : Server}
    (writable : server.Writable)
    (sentinel : 0 < server.raft.log.length)
    (leads : proc.main.leads = true)
    (notFinish : ∀ index copied, act ≠ .handleAppendFinish index copied)
    (low :
      ∀ src req, act = .handleAppend src req →
        req.term ≤ server.raft.currentTerm) :
    wp (proc.body act)
      (fun _ final => server.LeadershipChange act final)
      (fun _ final => server.LeadershipChange act final) server := by
  have keeps :
      ∀ {α : Type} {body : Section α},
        wp body (fun _ final => final.ringView = server.ringView)
          (fun _ final => final.ringView = server.ringView) server →
        wp body (fun _ final => server.LeadershipChange act final)
          (fun _ final => server.LeadershipChange act final) server :=
    fun same => wp_mono same (fun _ _ => .kept) fun _ _ => .kept
  unfold Process.body
  split
  · exact keeps (mainBody_ring leads)
  · rw [wp_discard]
    exact keeps ((handleRequestVoteRequest_ringView _).ends server)
  · rw [wp_discard]
    refine wp_mono (handleAppendEntriesRequest_refused writable.leader
      (low _ _ rfl)) ?_ fun _ _ never => never.elim
    rintro _ final rfl
    exact .kept rfl
  · rw [wp_discard]
    refine wp_mono (applyCommands_ring writable sentinel _) ?_
      fun _ _ never => never.elim
    rintro _ final (same | ⟨admitted, placed⟩)
    · exact .kept same
    · exact .admitted rfl admitted placed
  · exact keeps (applyPending_ringView.ends server)
  · exact .collected rfl (collectGarbage_ringView writable.leader)
  · split
    · exact keeps (threadBody_ring notFinish)
    · exact .kept rfl

end

/-- No message of a leadership demotes the leader. -/
theorem not_demotes_of_oneLeadership
    {proc : Process}
    {input : Input}
    (inside : oneLeadership proc input = true) :
    proc.node.demotes input.act = false := by
  unfold oneLeadership at inside
  cases act : input.act with
  | voteReply index rsp =>
      rw [act] at inside
      exact decide_eq_false (Nat.not_lt.mpr (of_decide_eq_true inside))
  | handleVote src req =>
      rw [act] at inside
      exact decide_eq_false (Nat.not_lt.mpr (of_decide_eq_true inside))
  | handleAppend src req =>
      rw [act] at inside
      exact decide_eq_false (Nat.not_lt.mpr (of_decide_eq_true inside))
  | _ =>
      rfl

/-- A leader does not step down by its own act. -/
theorem not_stepsDown_of_leader
    {node : Node}
    (leader : node.view.role = .leader)
    (act : Act) :
    node.stepsDown act = false := by
  cases act with
  | handleAppend src req =>
      simp [Node.stepsDown, leader]
  | _ =>
      rfl

/-- A process in the middle of a leadership with a chain of records. -/
structure Process.Chaining
    (proc : Process)
    (extents : List Extent) : Prop where
  wellformed : proc.Wellformed
  leads : proc.main.leads = true
  chain : proc.server.LeadsChain extents

/-- Changes of the ring keep the chain of a leader. -/
theorem Server.RingChange.leadsChain
    {before after : Server}
    {extents : List Extent}
    (change : before.RingChange after)
    (chain : before.LeadsChain extents)
    (leader : after.raft.state = .leader) :
    after.LeadsChain extents := by
  obtain ⟨-, extents, below, chained⟩ := chain
  cases change with
  | kept same =>
      rw [← same] at extents below chained
      exact ⟨leader, extents, below, chained⟩
  | @appended commands placed =>
      obtain ⟨longer, same⟩ := RingView.Chained.placeAll
        (commands.map fun command : List UInt8 =>
          slotsForEntry command.length)
        (chained.withTail (before.ring.tailLogIndex + commands.length))
        below
      have tail : after.ringView.tail =
          before.ring.tailLogIndex + commands.length := by
        rw [placed, RingView.placeAll_tail]
        rfl
      rw [List.length_map] at longer
      refine ⟨leader, ?_, ?_, ?_⟩
      · rw [placed, RingView.placeAll_extents]
        exact extents
      · rw [tail, placed]
        exact same.trans_lt (Nat.lt_add_right _ below)
      · rw [tail, placed]
        exact longer
  | collected cut =>
      refine ⟨leader, ?_, ?_, ?_⟩
      · rw [cut]
        exact extents
      · have bound : before.minMatch ≤ before.ringView.tail - 1 :=
          minMatch_le before
        rw [cut]
        dsimp only
        omega
      · rw [cut]
        exact chained.collect before.minMatch

section

variable {proc : Process} {input : Input} {result : Process × Outputs}
variable {extents : List Extent}
variable (tiled : Tiles 0 extents)
variable (chaining : proc.Chaining extents)
variable (inside : soundLeadership proc input = true)
variable (stepped : proc.step input.outcomes input.act = some result)

include inside in
theorem noRestart_of_soundLeadership :
    ∀ kernel cacheLost, input.act ≠ .restart kernel cacheLost := by
  intro kernel cacheLost restarts
  rw [soundLeadership, oneLeadership, restarts] at inside
  cases inside

include chaining inside stepped in
theorem Process.Chaining.sentinel :
    0 < proc.server.raft.log.length := by
  have running :=
    Process.running_of_step stepped (noRestart_of_soundLeadership inside)
  have held := List.length_pos_of_ne_nil
    (chaining.wellformed.sentinel running)
  simpa [Server.view] using held

include tiled chaining inside in
theorem Process.Chaining.writable :
    (proc.server.withOutcomes input.outcomes).Writable := by
  have layout : Tiles 0 proc.server.ringView.extents := by
    rw [chaining.chain.extents]
    exact tiled
  exact ⟨chaining.chain.leader, (Bool.and_eq_true_iff.mp inside).2, layout⟩

include tiled chaining inside stepped

/-- A step of a leadership changes the ring in one of the ways listed. -/
theorem Process.Chaining.leadershipChange :
    proc.server.LeadershipChange input.act result.1.server := by
  have oneTerm := (Bool.and_eq_true_iff.mp inside).1
  have noRestart := noRestart_of_soundLeadership inside
  have notFinish :
      ∀ index copied, input.act ≠ .handleAppendFinish index copied := by
    intro index copied finishes
    rw [oneLeadership, finishes] at oneTerm
    cases oneTerm
  have low :
      ∀ src req, input.act = .handleAppend src req →
        req.term ≤ proc.server.raft.currentTerm := by
    intro src req handles
    rw [oneLeadership, handles] at oneTerm
    exact of_decide_eq_true oneTerm
  have spec :
      proc.BodySpec input.outcomes input.act
        (proc.server.LeadershipChange input.act)
        (proc.server.LeadershipChange input.act) := by
    have started :
        ∀ final,
          (proc.server.withOutcomes input.outcomes).LeadershipChange
            input.act final →
          proc.server.LeadershipChange input.act final := by
      intro final change
      cases change with
      | kept same => exact .kept same
      | admitted act admits placed => exact .admitted act admits placed
      | collected act cut => exact .collected act cut
    exact wp_mono
      (body_ring (chaining.writable tiled inside)
        (chaining.sentinel inside stepped) chaining.leads notFinish low)
      (fun _ final change => started final change)
      (fun _ final change => started final change)
  rcases Process.step_ends spec stepped noRestart with
    unchanged | returned | ⟨threw, -⟩
  · rw [unchanged]
    exact .kept rfl
  · exact returned
  · exact threw

/-- What a step of a leader does to the ring. -/
theorem Process.Chaining.changes :
    proc.server.RingChange result.1.server :=
  (chaining.leadershipChange tiled inside stepped).ringChange

theorem Process.Chaining.goesOn :
    result.1.Chaining extents := by
  have oneTerm := (Bool.and_eq_true_iff.mp inside).1
  have does := Process.step_does chaining.wellformed stepped
  have role : result.1.node.view.role = .leader := by
    have leads : proc.node.main.leads = true := chaining.leads
    have quiet := Node.leads_quiet leads input.act
    exact (Node.Step.keeps_role does (noRestart_of_soundLeadership inside)
      (not_demotes_of_oneLeadership oneTerm) quiet.1 quiet.2
      (not_stepsDown_of_leader chaining.chain.leader _)).1.trans
        chaining.chain.leader
  have change := chaining.changes tiled inside stepped
  exact {
    wellformed := Process.step_wellformed chaining.wellformed stepped
    leads := Node.Step.main_leads does chaining.leads role
    chain := change.leadsChain chaining.chain role }

/-- A client request that is taken places its own commands. -/
theorem Process.Chaining.applies
    {sink : Nat}
    {commands : List (List UInt8)}
    (act : input.act = .apply sink commands) :
    result.1.server.ringView = proc.server.ringView ∨
      result.1.server.ringView =
        (proc.server.ringView.withTail
          (proc.server.ring.tailLogIndex + commands.length)).placeAll
            proc.server.ring.tailLogIndex
            (commands.map fun command : List UInt8 =>
              slotsForEntry command.length) := by
  cases chaining.leadershipChange tiled inside stepped with
  | kept same =>
      exact Or.inl same
  | admitted applies _ placed =>
      obtain ⟨-, rfl⟩ := Act.apply.inj (act.symm.trans applies)
      exact Or.inr placed
  | collected collects _ =>
      cases act.symm.trans collects

end

/-- Every step of the leadership keeps the chain. -/
theorem Process.Chaining.step
    {proc next : Process}
    {input : Input}
    {extents : List Extent}
    (tiled : Tiles 0 extents)
    (chaining : proc.Chaining extents)
    (inside : soundLeadership proc input = true)
    (advanced : proc.advance input = some next) :
    next.Chaining extents := by
  obtain ⟨result, stepped, rfl⟩ := Option.map_eq_some_iff.mp advanced
  exact chaining.goesOn tiled inside stepped

/-- A running process has a tail index, and its handlers keep one. -/
structure Process.Started (proc : Process) : Prop where
  wellformed : proc.Wellformed
  tail : proc.halted = false → 0 < proc.server.ring.tailLogIndex
  reach : proc.node.HandlersReach

/-- Taking up entries leaves a positive tail. -/
theorem View.complete_tail_pos
    {view : View}
    {pending : PendingAppend}
    (started : 0 < view.tail)
    (reaches : pending.Reaches) :
    0 < (view.complete pending).tail := by
  have some : 0 < pending.req.numEntries := Nat.zero_lt_of_lt reaches
  simp only [View.complete, View.followCommit, View.build]
  split
  · exact Nat.add_pos_right _ some
  · exact started

/-- A step that is no restart keeps the tail index above zero. -/
theorem Node.Step.tail_pos
    {mapped : Nat → Prop}
    {node after : Node}
    {act : Act}
    {outputs : Outputs}
    (step : node.Step mapped act after outputs)
    (started : 0 < node.view.tail)
    (reach : node.HandlersReach)
    (stays : act.isRestart = false) :
    0 < after.view.tail := by
  cases step.logEffect with
  | kept same =>
      exact same.tail.symm ▸ started
  | won _ _ _ tail =>
      rw [tail]
      exact Nat.succ_pos _
  | pushed _ viewed =>
      rw [viewed]
      exact Nat.add_pos_left started _
  | completed _ brings _ viewed =>
      rw [viewed]
      refine View.complete_tail_pos ?_ (View.pending_reaches brings)
      exact (View.revoted_meet _).sameLog.tail.symm ▸ started
  | finished found viewed =>
      rw [viewed]
      exact View.complete_tail_pos started
        (reach _ _ (List.mem_of_getElem? found))
  | trimmed _ viewed =>
      rw [viewed]
      exact started
  | restarted _ =>
      cases stays
  | restartThrew _ _ =>
      cases stays

/-- Every step of a started node keeps it started. -/
theorem Process.Started.step
    {proc next : Process}
    {input : Input}
    (started : proc.Started)
    (advanced : proc.advance input = some next) :
    next.Started := by
  obtain ⟨result, stepped, rfl⟩ := Option.map_eq_some_iff.mp advanced
  have does := Process.step_does started.wellformed stepped
  refine ⟨Process.step_wellformed started.wellformed stepped, ?_,
    Node.Step.handlersReach does started.reach⟩
  cases stays : input.act.isRestart with
  | true =>
      unfold Process.Does at does
      cases act : input.act with
      | restart kernel cacheLost =>
          rw [act] at does
          exact does.rooted_of_restart.started
      | _ =>
          rw [act] at stays
          cases stays
  | false =>
      intro _
      have running := Process.running_of_step stepped (Act.not_restart stays)
      exact Node.Step.tail_pos does (started.tail running) started.reach stays

/-- A booted node is started. -/
theorem boot_started
    {n : Nat}
    (members : Membership n)
    (settings : Fin n → Settings)
    (node : Fin n) :
    (members.boot settings node).Started where
  wellformed := boot_wellformed members settings node
  tail := (boot_rooted members settings node).rooted.started
  reach := by
    obtain ⟨halted, fresh⟩ := boot_node members settings node
    rw [fresh]
    intro src pending held
    cases held

theorem run_started
    {inputs : List Input}
    {start final : Process}
    (started : start.Started)
    (run : start.Reaches inputs final) :
    final.Started :=
  runWhile_invariant Process.Started
    (fun _ _ _ holds _ advanced => holds.step advanced) started run

/-- A step that wins an election runs `become_leader`. -/
theorem Process.elected_wp
    {candidate leader : Process}
    {election : Input}
    {holds : Server → Prop}
    (wellformed : candidate.Wellformed)
    (wins : candidate.node.wins election.act = true)
    (elected : candidate.advance election = some leader)
    (spec :
      ∀ expired load,
        election.act = .main expired load →
        candidate.halted = false →
        0 < candidate.server.raft.log.length →
        candidate.server.quorumLeft = 0 →
        wp (becomeLeader load) (fun _ final => holds final)
          (fun _ _ => False)
          (candidate.server.withOutcomes election.outcomes)) :
    leader.main = .top ∧ holds leader.server := by
  obtain ⟨result, stepped, rfl⟩ := Option.map_eq_some_iff.mp elected
  cases act : election.act with
  | main expired load =>
      rw [act] at wins stepped
      have noRestart :
          ∀ kernel cacheLost,
            Act.main expired load ≠ .restart kernel cacheLost :=
        fun _ _ => Act.noConfusion
      have running := Process.running_of_step stepped noRestart
      have sentinel : 0 < candidate.server.raft.log.length := by
        have held := List.length_pos_of_ne_nil
          (wellformed.sentinel running)
        simpa [Server.view] using held
      obtain ⟨atElection, won⟩ := Bool.and_eq_true_iff.mp wins
      have pc : candidate.main = .becomeLeader :=
        of_decide_eq_true atElection
      have quorum : candidate.server.quorumLeft = 0 := by
        rw [quorumLeft_eq]
        exact of_decide_eq_true won
      simp only [Process.step, running, Bool.false_eq_true, if_false,
        Option.some.injEq, Process.stepMain, pc, quorum, if_true] at stepped
      rw [← stepped]
      refine execOrHalt_wp
        (fun result : Process × Outputs =>
          result.1.main = .top ∧ holds result.1.server)
        (spec expired load act running sentinel quorum) ?_ ?_
      · exact fun _ _ held => ⟨rfl, held⟩
      · exact fun _ _ never => never.elim
  | _ =>
      rw [act] at wins
      cases wins

/-- A leadership starts with the chain of slot records that it finds. -/
theorem Process.Chaining.of_election
    {candidate leader : Process}
    {election : Input}
    (started : candidate.Started)
    (wins : candidate.node.wins election.act = true)
    (succeed : election.outcomes.succeed = true)
    (elected : candidate.advance election = some leader)
    (tiled : Tiles 0 candidate.server.io.extents)
    (chained :
      candidate.server.markedView.Chained
        candidate.server.ring.tailLogIndex) :
    leader.Chaining candidate.server.io.extents := by
  obtain ⟨top, chain⟩ :=
    Process.elected_wp started.wellformed wins elected
      fun _ load _ running sentinel won =>
        becomeLeader_ring load succeed tiled sentinel (started.tail running)
          chained won
  obtain ⟨result, stepped, rfl⟩ := Option.map_eq_some_iff.mp elected
  refine ⟨Process.step_wellformed started.wellformed stepped, ?_, chain⟩
  rw [top]
  rfl

end NvmeofRaft
