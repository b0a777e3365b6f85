import NvmeofRaft.AppliedCommands
import NvmeofRaft.CommitSignal

namespace NvmeofRaft

/-!
# Where the entries of a client call come from

An entry that a client call collects results for has been appended by it.  It
stays at its index with its command, until `apply_pending` releases it or
garbage collection trims it, and `advance_commit_index` alone sets its signal.
-/

/-- The step advances the commit index over the index of an entry. -/
structure Server.CommitsAt
    (server : Server)
    (after : EntryView)
    (logIdx : Nat) : Prop where
  leader : server.raft.state = .leader
  above : server.raft.commitIndex < logIdx
  reached : logIdx ≤ server.majorityIndex
  inLog : server.majorityIndex < server.ring.tailLogIndex
  commit : after.commit = server.majorityIndex
  stays : after.role = .leader

/-- What a step makes of an entry with a result sink. -/
structure Entry.GoesOn
    (old entry : Entry)
    (commits : Prop) : Prop where
  sink : old.resultSink = entry.resultSink
  /-- An entry that defers nothing keeps its command. -/
  command :
    old.ringSlot = 0 →
    entry.ringSlot = 0 ∧ entry.command = old.command
  signal : entry.committed = old.committed ∨ commits

theorem Entry.GoesOn.refl
    (entry : Entry)
    (commits : Prop) :
    entry.GoesOn entry commits :=
  ⟨rfl, fun none => ⟨none, rfl⟩, Or.inl rfl⟩

/-- Loading a deferred command leaves the entries of client calls alone. -/
theorem loadDeferred_goesOn
    (load : Nat → Option (List UInt8))
    (entry : Entry)
    (commits : Prop) :
    entry.GoesOn (loadDeferred load entry) commits := by
  refine ⟨?_, fun none => ?_, Or.inl (loadDeferred_committed load entry)⟩
  · unfold loadDeferred
    split
    · split <;> rfl
    · rfl
  · unfold loadDeferred
    rw [if_neg fun deferred => deferred.2 none]
    exact ⟨none, rfl⟩

/-- The loop of `apply_pending` releases an entry or leaves it alone. -/
theorem applyPendingLoop_sinks :
    ∀ bound (server : Server),
      server.entryView.Covered →
      ∀ logIdx entry,
        (applyPendingLoop server.oldestLogIndex bound
            server).entryView.entryAt? logIdx = some entry →
        entry.resultSink ≠ none →
        server.entryView.entryAt? logIdx = some entry := by
  intro bound
  induction bound with
  | zero =>
      exact fun _ _ _ _ found _ => found
  | succ bound inductionHypothesis =>
      intro server covered logIdx entry found sink
      unfold applyPendingLoop at found
      split at found
      · rename_i allowed
        simp only [Server.canApply, Bool.and_eq_true,
          decide_eq_true_eq] at allowed
        have inMemory : server.entryView.oldest ≤ server.raft.lastApplied :=
          allowed.1.1
        have log := applyEntry_log inMemory
        rw [← applyEntry_oldest server] at found
        have held := inductionHypothesis server.applyEntry
          (applyEntry_covered covered inMemory) logIdx entry found sink
        have changed :
            server.applyEntry.entryView.entryAt? logIdx =
              (server.entryView.change server.raft.lastApplied
                Entry.release).entryAt? logIdx := by
          show EntryView.entryAt?
            { server.applyEntry.entryView with
              log := server.applyEntry.raft.log } logIdx = _
          rw [log]
          rfl
        rw [changed, EntryView.change_entry inMemory] at held
        split at held
        · obtain ⟨old, -, rfl⟩ := Option.map_eq_some_iff.mp held
          exact absurd rfl sink
        · exact held
      · exact found

/-- The entries that `become_leader` has loaded. -/
theorem readied_entryAt
    (server : Server)
    (load : Nat → Option (List UInt8))
    (logIdx : Nat) :
    (server.readied load).entryView.entryAt? logIdx =
      (server.entryView.entryAt? logIdx).map (loadDeferred load) := by
  obtain ⟨log, -, -⟩ := readied_entries server load
  rw [EntryView.entryAt?, EntryView.entryAt?, readied_oldest, log]
  split
  · rename_i inMemory
    have position :
        logIdx + 1 - server.entryView.oldest =
          logIdx - server.entryView.oldest + 1 := by
      omega
    rw [position]
    show _ = (server.raft.log[_]?).map _
    cases server.raft.log with
    | nil => simp
    | cons sentinel rest => simp
  · rfl

/-- What the append handler appends has no result sink. -/
theorem deferredEntries_sinks
    (ringSlots skipEntries : Nat) :
    ∀ (metas : List EntryMeta) (index slot : Nat),
      ∀ entry ∈ deferredEntries ringSlots skipEntries index slot metas,
        entry.resultSink = none := by
  intro metas
  induction metas with
  | nil =>
      intro index slot entry member
      cases member
  | cons entryMeta rest inductionHypothesis =>
      intro index slot entry member
      rw [deferredEntries] at member
      split at member
      · rcases List.mem_cons.mp member with rfl | later
        · rfl
        · exact inductionHypothesis _ _ entry later
      · exact inductionHypothesis _ _ entry member

theorem EntryView.buildLog_pushes
    {view : EntryView}
    {req : AppendEntriesRequest}
    {newTail skipEntries slot : Nat}
    (fits :
      req.entryMetas.length = req.numEntries →
        view.tail = newTail + skipEntries)
    (reaches : skipEntries < req.numEntries) :
    ∃ fresh : List Entry,
      (∀ entry ∈ fresh, entry.resultSink = none) ∧
        view.buildLog slot req newTail skipEntries = view.push fresh := by
  obtain ⟨fresh, -, built⟩ := @EntryView.buildLog_eq_push _ _ _ _ slot fits
    reaches
  refine ⟨fresh, fun entry member => ?_, built⟩
  have logs := congrArg EntryView.log built
  unfold EntryView.buildLog at logs
  split at logs
  · have same := List.append_cancel_left logs
    rw [← same] at member
    exact deferredEntries_sinks _ _ _ _ _ entry member
  · have same : view.log ++ [] = view.log ++ fresh :=
      (List.append_nil _).trans logs
    rw [← List.append_cancel_left same] at member
    cases member

/-- An entry with a result sink was there before other entries joined. -/
theorem EntryView.Covered.push_sinks
    {view : EntryView}
    {fresh : List Entry}
    {logIdx : Nat}
    {entry : Entry}
    (covered : view.Covered)
    (noSink : ∀ entry ∈ fresh, entry.resultSink = none)
    (found : (view.push fresh).entryAt? logIdx = some entry)
    (sink : entry.resultSink ≠ none) :
    view.entryAt? logIdx = some entry := by
  rw [covered.push_entry] at found
  split at found
  · exact found
  · exact absurd (noSink entry (List.mem_of_getElem? found)) sink

theorem EntryView.complete_sinks
    {view : EntryView}
    {slot logIdx : Nat}
    {pending : PendingAppend}
    {entry : Entry}
    (covered : view.Covered)
    (fits :
      pending.req.entryMetas.length = pending.req.numEntries →
        view.tail = pending.newTail + pending.skipEntries)
    (reaches : pending.skipEntries < pending.req.numEntries)
    (found : (view.complete slot pending).entryAt? logIdx = some entry)
    (sink : entry.resultSink ≠ none) :
    view.entryAt? logIdx = some entry := by
  obtain ⟨fresh, noSink, built⟩ :=
    @EntryView.buildLog_pushes _ _ _ _ slot fits reaches
  have same :
      (view.complete slot pending).entryAt? logIdx =
        (view.push fresh).entryAt? logIdx := by
    rw [← built]
    rfl
  rw [same] at found
  exact covered.push_sinks noSink found sink

/-- An entry with a sink was there before the append request. -/
theorem EntryView.Handled.sinks
    {view after : EntryView}
    {req : AppendEntriesRequest}
    {logIdx : Nat}
    {entry : Entry}
    (handled : view.Handled req after)
    (covered : view.Covered)
    (started : 0 < view.tail)
    (found : after.entryAt? logIdx = some entry)
    (sink : entry.resultSink ≠ none) :
    view.entryAt? logIdx = some entry := by
  obtain ⟨role, term, met⟩ :
      ∃ role term, view.meet req.term = { view with role, term } := by
    unfold EntryView.meet EntryView.stepDown EntryView.bump EntryView.demote
    split_ifs <;> exact ⟨_, _, rfl⟩
  cases handled with
  | demoted higher =>
      rw [EntryView.bump, if_pos higher] at found
      exact found
  | met =>
      rw [met] at found
      exact found
  | followed _ =>
      rw [met] at found
      exact found
  | @completed pending _ reached sameReq newTail skip reaches =>
      rw [met] at found
      have fits :
          view.tail = pending.newTail + pending.skipEntries := by
        rw [newTail, skip]
        omega
      rw [← sameReq] at reaches
      exact @EntryView.complete_sinks { view with role, term } _ _ _ _
        ⟨covered.sentinel, covered.covered⟩ (fun _ => fits) reaches found sink

/-- `advance_commit_index` sets the signals of what it newly covers. -/
theorem commitTo_goesOn
    {server : Server}
    {logIdx : Nat}
    {entry : Entry}
    (covered : server.entryView.Covered)
    (leader : server.raft.state = .leader)
    (above : server.raft.commitIndex < server.majorityIndex)
    (inLog : server.majorityIndex < server.ring.tailLogIndex)
    (found :
      (server.commitTo server.majorityIndex).entryView.entryAt? logIdx =
        some entry) :
    ∃ old,
      server.entryView.entryAt? logIdx = some old ∧
        old.GoesOn entry
          (server.CommitsAt (server.commitTo server.majorityIndex).entryView
            logIdx) := by
  have stays :
      (server.commitTo server.majorityIndex).entryView.role = .leader := by
    obtain ⟨log, same⟩ := signalCommittedFrom_only
      (server.majorityIndex - server.raft.commitIndex)
      (server.raft.commitIndex + 1)
      (server.mapRaft fun raft =>
        { raft with commitIndex := server.majorityIndex })
    rw [Server.commitTo, same]
    exact leader
  obtain ⟨commit, entries⟩ := signalCommittedFrom_entries
    (server.majorityIndex - server.raft.commitIndex)
    (server.raft.commitIndex + 1)
    (server.mapRaft fun raft =>
      { raft with commitIndex := server.majorityIndex })
    ⟨covered.sentinel, covered.covered⟩
  change (server.commitTo server.majorityIndex).entryView.entryAt? logIdx =
    some entry at found
  have effect := (entries logIdx).symm.trans found
  obtain ⟨old, held, rfl⟩ := Option.map_eq_some_iff.mp effect
  refine ⟨old, held, ?_⟩
  split
  · rename_i covers
    refine ⟨rfl, fun none => ⟨none, rfl⟩, Or.inr ?_⟩
    exact ⟨leader, by omega, by omega, inLog, commit, stays⟩
  · exact .refl old _

/-- The act is the one that has appended the entry for its client call. -/
structure Act.Appends
    (act : Act)
    (tail logIdx sink : Nat)
    (entry : Entry) : Prop where
  behind : tail ≤ logIdx
  command :
    ∃ commands,
      act = .apply sink commands ∧
        commands[logIdx - tail]? = some entry.command
  ringSlot : entry.ringSlot = 0
  waits : entry.committed = some false

/-- Where an entry with a result sink comes from. -/
theorem Process.EntryStep.origin
    {proc : Process}
    {server : Server}
    {act : Act}
    {after : EntryView}
    {logIdx sink : Nat}
    {entry : Entry}
    (step : proc.EntryStep server act after)
    (covered : server.entryView.Covered)
    (started : 0 < server.entryView.tail)
    (fits :
      ∀ index src pending,
        act = .handleAppendFinish index true →
        proc.threads[index]? = some (.appendHandler src pending) →
        pending.Fits server.view ∧ pending.Reaches)
    (found : after.entryAt? logIdx = some entry)
    (held : entry.resultSink = some sink) :
    act.Appends server.ring.tailLogIndex logIdx sink entry ∨
      ∃ old,
        server.entryView.entryAt? logIdx = some old ∧
          old.GoesOn entry (server.CommitsAt after logIdx) := by
  have some : entry.resultSink ≠ none := by
    rw [held]
    exact Option.some_ne_none sink
  have same :
      server.entryView.entryAt? logIdx = .some entry →
      act.Appends server.ring.tailLogIndex logIdx sink entry ∨
        ∃ old,
          server.entryView.entryAt? logIdx = .some old ∧
            old.GoesOn entry (server.CommitsAt after logIdx) :=
    fun before => Or.inr ⟨entry, before, .refl entry _⟩
  cases step with
  | kept =>
      exact same found
  | bumped _ =>
      refine same ?_
      unfold EntryView.bump at found
      split at found <;> exact found
  | handled handled =>
      exact same (handled.sinks covered started found some)
  | finished running =>
      obtain ⟨fit, reaches⟩ := fits _ _ _ rfl running
      exact same (EntryView.complete_sinks covered fit reaches found some)
  | campaigned _ =>
      exact same found
  | @promoted _ load _ _ =>
      have ready : (server.readied load).entryView.Covered := by
        refine ⟨?_, ?_⟩
        · rw [readied_length]
          exact covered.sentinel
        · rw [readied_length, (readied_entries server load).2.1]
          exact covered.covered
      have before := @EntryView.Covered.push_sinks _
        [{ term := (server.readied load).raft.currentTerm }] _ _ ready
        (by simp) found some
      rw [readied_entryAt] at before
      obtain ⟨old, was, rfl⟩ := Option.map_eq_some_iff.mp before
      exact Or.inr ⟨old, was, loadDeferred_goesOn load old _⟩
  | committed _ leader above inLog =>
      exact Or.inr (commitTo_goesOn covered leader above inLog found)
  | @appended collector commands _ =>
      rw [covered.push_entry] at found
      split at found
      · exact same found
      · rename_i behind
        rw [clientEntries, List.getElem?_map, Option.map_eq_some_iff] at found
        obtain ⟨command, added, rfl⟩ := found
        cases held
        exact Or.inl ⟨Nat.le_of_not_lt behind, ⟨commands, rfl, added⟩, rfl,
          rfl⟩
  | applied =>
      unfold Server.applyCommitted at found
      split at found
      · exact same (applyPendingLoop_sinks _ server covered logIdx entry found
          some)
      · exact same found
  | collected =>
      rcases collectGarbage_entryView server with
        unchanged | ⟨removed, within, -, trimmed⟩
      · rw [unchanged] at found
        exact same found
      · rw [trimmed, covered.trim_entry within] at found
        split at found
        · exact same found
        · cases found

end NvmeofRaft
