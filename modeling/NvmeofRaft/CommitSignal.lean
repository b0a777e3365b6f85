import NvmeofRaft.ApplyOrder
import NvmeofRaft.Leadership

namespace NvmeofRaft

/-!
# Commit signals

`advance_commit_index` signals the entries that it newly covers, the append
handler raises `commit_index` without signalling.  As long as no handler has
done so, every entry in memory up to `commit_index` has been signalled, also
over lost and regained leaderships.
-/

namespace EntryView

/-- No entry up to the commit index waits for its signal. -/
def Signalled (view : EntryView) : Prop :=
  ∀ logIdx entry,
    view.entryAt? logIdx = some entry →
    logIdx ≤ view.commit →
    entry.committed ≠ some false

/-- A pointer that is gone was gone before, or its signal had been set. -/
def DropsSet (before after : EntryView) : Prop :=
  ∀ logIdx entry,
    after.entryAt? logIdx = some entry →
    entry.committed = none →
    ∃ old,
      before.entryAt? logIdx = some old ∧ old.committed ≠ some false

/-- The same entries under the same commit index. -/
theorem signalled_of_same
    {before after : EntryView}
    (entries : ∀ logIdx, after.entryAt? logIdx = before.entryAt? logIdx)
    (commit : after.commit = before.commit)
    (signalled : before.Signalled) :
    after.Signalled ∧ before.DropsSet after := by
  refine ⟨fun logIdx entry found committed => ?_,
    fun logIdx entry found dropped => ?_⟩
  · rw [entries] at found
    exact signalled logIdx entry found (commit ▸ committed)
  · rw [entries] at found
    exact ⟨entry, found, by simp [dropped]⟩

/-- Entries behind the commit index join without a signal. -/
theorem Covered.push_signalled
    {view : EntryView}
    {entries : List Entry}
    (covered : view.Covered)
    (committed : view.commit < view.tail)
    (fresh : ∀ entry ∈ entries, entry.committed = some false)
    (signalled : view.Signalled) :
    (view.push entries).Signalled ∧ view.DropsSet (view.push entries) := by
  refine ⟨fun logIdx entry found below => ?_,
    fun logIdx entry found dropped => ?_⟩
  · have inside : logIdx < view.tail := Nat.lt_of_le_of_lt below committed
    rw [covered.push_entry, if_pos inside] at found
    exact signalled logIdx entry found below
  · rw [covered.push_entry] at found
    split at found
    · exact ⟨entry, found, by simp [dropped]⟩
    · have joined := fresh entry (List.mem_of_getElem? found)
      rw [dropped] at joined
      cases joined

/-- Trimming drops signalled entries only. -/
theorem Covered.trim_signalled
    {view : EntryView}
    {removed : Nat}
    (covered : view.Covered)
    (fits : removed ≤ view.log.length - 1)
    (signalled : view.Signalled) :
    (view.trim removed).Signalled ∧ view.DropsSet (view.trim removed) := by
  refine ⟨fun logIdx entry found below => ?_,
    fun logIdx entry found dropped => ?_⟩
  · rw [covered.trim_entry fits] at found
    split at found
    · exact signalled logIdx entry found below
    · cases found
  · rw [covered.trim_entry fits] at found
    split at found
    · exact ⟨entry, found, by simp [dropped]⟩
    · cases found

end EntryView

/-- A section of the append handler. -/
def Act.isAppendHandler : Act → Bool
  | .handleAppend _ _ => true
  | .handleAppendFinish _ _ => true
  | _ => false

theorem deferredEntries_length
    (ringSlots skipEntries : Nat) :
    ∀ (metas : List EntryMeta) (index slot : Nat),
      (deferredEntries ringSlots skipEntries index slot metas).length =
        metas.length - (skipEntries - index) := by
  intro metas
  induction metas with
  | nil =>
      intro index slot
      simp [deferredEntries]
  | cons entryMeta rest inductionHypothesis =>
      intro index slot
      rw [deferredEntries]
      split
      · rw [List.length_cons, inductionHypothesis, List.length_cons]
        omega
      · rw [inductionHypothesis, List.length_cons]
        omega

/-- The signals of deferred entries are unset. -/
theorem deferredEntries_unsignalled
    (ringSlots skipEntries : Nat) :
    ∀ (metas : List EntryMeta) (index slot : Nat),
      ∀ entry ∈ deferredEntries ringSlots skipEntries index slot metas,
        entry.committed = some false := by
  intro metas
  induction metas with
  | nil =>
      intro index slot entry member
      cases member
  | cons entryMeta rest inductionHypothesis =>
      intro index slot entry member
      rw [deferredEntries] at member
      split at member
      · rcases List.mem_cons.mp member with first | later
        · rw [first]
        · exact inductionHypothesis _ _ entry later
      · exact inductionHypothesis _ _ entry member

/-- On an unmoved tail the build loop appends its entries at the tail. -/
theorem EntryView.buildLog_eq_push
    {view : EntryView}
    {req : AppendEntriesRequest}
    {newTail skipEntries slot : Nat}
    (fits :
      req.entryMetas.length = req.numEntries →
        view.tail = newTail + skipEntries)
    (reaches : skipEntries < req.numEntries) :
    ∃ fresh : List Entry,
      (∀ entry ∈ fresh, entry.committed = some false) ∧
        view.buildLog slot req newTail skipEntries = view.push fresh := by
  unfold EntryView.buildLog
  split
  · rename_i whole
    refine ⟨_, deferredEntries_unsignalled view.ringSlots skipEntries
      req.entryMetas 0 slot, ?_⟩
    have length := deferredEntries_length view.ringSlots skipEntries
      req.entryMetas 0 slot
    have tail := fits whole
    simp only [EntryView.push, length, whole, EntryView.mk.injEq, true_and,
      and_true]
    omega
  · exact ⟨[], by simp, by simp [EntryView.push]⟩

/-- A handler that leaves the commit index alone keeps the signals. -/
theorem EntryView.complete_signalled
    {view : EntryView}
    {slot : Nat}
    {pending : PendingAppend}
    (covered : view.Covered)
    (committed : view.commit < view.tail)
    (fits :
      pending.req.entryMetas.length = pending.req.numEntries →
        view.tail = pending.newTail + pending.skipEntries)
    (reaches : pending.skipEntries < pending.req.numEntries)
    (unraised : (view.complete slot pending).commit = view.commit)
    (signalled : view.Signalled) :
    (view.complete slot pending).Signalled ∧
      view.DropsSet (view.complete slot pending) := by
  obtain ⟨fresh, unsignalled, built⟩ :=
    EntryView.buildLog_eq_push fits reaches
  obtain ⟨pushed, drops⟩ :=
    covered.push_signalled committed unsignalled signalled
  have same :
      view.complete slot pending =
        { view.push fresh with
          commit := (view.complete slot pending).commit } := by
    rw [EntryView.complete, built]
    rfl
  rw [same, unraised]
  exact ⟨pushed, drops⟩

/-- An append request that commits nothing drops signalled entries only. -/
theorem EntryView.Handled.signalled
    {view after : EntryView}
    {req : AppendEntriesRequest}
    (handled : view.Handled req after)
    (covered : view.Covered)
    (committed : view.commit < view.tail)
    (unraised : after.commit = view.commit)
    (signalled : view.Signalled) :
    after.Signalled ∧ view.DropsSet after := by
  have met :
      ∃ role term, view.meet req.term = { view with role, term } := by
    unfold EntryView.meet EntryView.stepDown EntryView.bump EntryView.demote
    split_ifs
    · exact ⟨_, _, rfl⟩
    · exact ⟨_, _, rfl⟩
    · exact ⟨_, _, rfl⟩
    · exact ⟨_, _, rfl⟩
  obtain ⟨role, term, met⟩ := met
  cases handled with
  | demoted higher =>
      rw [EntryView.bump, if_pos higher]
      exact EntryView.signalled_of_same (fun _ => rfl) rfl signalled
  | met =>
      rw [met]
      exact EntryView.signalled_of_same (fun _ => rfl) rfl signalled
  | followed _ =>
      refine EntryView.signalled_of_same (fun _ => ?_) unraised signalled
      rw [met]
      rfl
  | @completed pending _ reached sameReq newTail skip reaches =>
      rw [met] at unraised ⊢
      have fits :
          view.tail = pending.newTail + pending.skipEntries := by
        rw [newTail, skip]
        omega
      rw [← sameReq] at reaches
      have same : ({ view with role, term } : EntryView).Covered :=
        ⟨covered.sentinel, covered.covered⟩
      exact EntryView.complete_signalled same committed (fun _ => fits)
        reaches unraised signalled

/-- The signal loop sets the signals of the indices it covers. -/
theorem signalCommittedFrom_entries :
    ∀ count first (server : Server),
      server.entryView.Covered →
      (signalCommittedFrom count first server).entryView.commit =
          server.entryView.commit ∧
        ∀ logIdx,
          (signalCommittedFrom count first server).entryView.entryAt? logIdx =
            (server.entryView.entryAt? logIdx).map fun entry =>
              if first ≤ logIdx ∧ logIdx < first + count ∧
                  logIdx < server.entryView.tail then
                entry.signalCommitted
              else
                entry := by
  intro count
  induction count with
  | zero =>
      intro first server _
      refine ⟨rfl, fun logIdx => ?_⟩
      have never : ¬ (first ≤ logIdx ∧ logIdx < first + 0 ∧
          logIdx < server.entryView.tail) := by
        omega
      simp only [signalCommittedFrom, never, if_false, Option.map_id_fun',
        id_eq]
  | succ count inductionHypothesis =>
      intro first server covered
      rw [signalCommittedFrom]
      split
      · rename_i inLog
        have inMemory : server.entryView.oldest ≤ first := inLog.1
        have changed :
            (server.mapRaft fun raft =>
              { raft with
                log := raft.log.modify (server.logSlice first)
                  Entry.signalCommitted }).entryView =
              server.entryView.change first Entry.signalCommitted := by
          have slice :
              server.logSlice first = first + 1 - server.entryView.oldest :=
            sub64_of_le (Nat.le_succ_of_le inMemory)
          rw [slice]
          rfl
        obtain ⟨commit, entries⟩ := inductionHypothesis (first + 1)
          (server.mapRaft fun raft =>
            { raft with
              log := raft.log.modify (server.logSlice first)
                Entry.signalCommitted })
          (changed.symm ▸ covered.change first Entry.signalCommitted)
        refine ⟨commit, fun logIdx => ?_⟩
        rw [entries, changed, EntryView.change_entry inMemory]
        have tail :
            (server.entryView.change first Entry.signalCommitted).tail =
              server.entryView.tail :=
          rfl
        have below : first < server.entryView.tail := inLog.2
        rw [tail]
        by_cases here : logIdx = first
        · subst here
          simp only [if_true, Nat.not_succ_le_self, false_and, if_false,
            Option.map_map, le_refl, below,
            Nat.lt_add_of_pos_right (Nat.succ_pos count), and_true]
          rfl
        · have later :
              (first + 1 ≤ logIdx ∧ logIdx < first + 1 + count ∧
                logIdx < server.entryView.tail) ↔
                (first ≤ logIdx ∧ logIdx < first + (count + 1) ∧
                  logIdx < server.entryView.tail) := by
            omega
          simp only [here, if_false, later]
      · rename_i outside
        obtain ⟨commit, entries⟩ :=
          inductionHypothesis (first + 1) server covered
        refine ⟨commit, fun logIdx => ?_⟩
        rw [entries]
        cases found : server.entryView.entryAt? logIdx with
        | none =>
            rfl
        | some entry =>
            have inMemory := EntryView.oldest_le_of_entry found
            have later :
                (first + 1 ≤ logIdx ∧ logIdx < first + 1 + count ∧
                  logIdx < server.entryView.tail) ↔
                  (first ≤ logIdx ∧ logIdx < first + (count + 1) ∧
                    logIdx < server.entryView.tail) := by
              have apart : logIdx = first →
                  ¬ logIdx < server.entryView.tail := by
                rintro rfl below
                exact outside ⟨inMemory, below⟩
              omega
            simp only [Option.map_some, later]

theorem Entry.signalCommitted_ne
    (entry : Entry) :
    entry.signalCommitted.committed ≠ some false := by
  cases committed : entry.committed <;>
    simp [Entry.signalCommitted, committed]

/-- `advance_commit_index` signals what it newly covers. -/
theorem commitTo_signalled
    {server : Server}
    {majorityIdx : Nat}
    (covered : server.entryView.Covered)
    (inLog : majorityIdx < server.ring.tailLogIndex)
    (signalled : server.entryView.Signalled) :
    (server.commitTo majorityIdx).entryView.Signalled ∧
      server.entryView.DropsSet (server.commitTo majorityIdx).entryView := by
  obtain ⟨commit, entries⟩ := signalCommittedFrom_entries
    (majorityIdx - server.raft.commitIndex) (server.raft.commitIndex + 1)
    (server.mapRaft fun raft => { raft with commitIndex := majorityIdx })
    ⟨covered.sentinel, covered.covered⟩
  change (server.commitTo majorityIdx).entryView.commit = majorityIdx
    at commit
  change ∀ logIdx,
    (server.commitTo majorityIdx).entryView.entryAt? logIdx =
      (server.entryView.entryAt? logIdx).map fun entry =>
        if server.raft.commitIndex + 1 ≤ logIdx ∧
            logIdx < server.raft.commitIndex + 1 +
              (majorityIdx - server.raft.commitIndex) ∧
            logIdx < server.ring.tailLogIndex then
          entry.signalCommitted
        else
          entry at entries
  refine ⟨fun logIdx entry found below => ?_,
    fun logIdx entry found dropped => ?_⟩
  · rw [entries] at found
    obtain ⟨old, held, rfl⟩ := Option.map_eq_some_iff.mp found
    rw [commit] at below
    split
    · exact Entry.signalCommitted_ne old
    · rename_i before
      refine signalled logIdx old held ?_
      show logIdx ≤ server.raft.commitIndex
      omega
  · rw [entries] at found
    obtain ⟨old, held, rfl⟩ := Option.map_eq_some_iff.mp found
    refine ⟨old, held, fun unset => ?_⟩
    split at dropped
    · simp [Entry.signalCommitted, unset] at dropped
    · rw [unset] at dropped
      cases dropped

/-- The entries up to the commit index that have been passed on. -/
def EntryView.Releases (before after : EntryView) : Prop :=
  after.commit = before.commit ∧
    ∀ logIdx entry,
      after.entryAt? logIdx = some entry →
      ∃ old,
        before.entryAt? logIdx = some old ∧
          (entry.committed = old.committed ∨
            entry.committed = none ∧ logIdx ≤ before.commit)

theorem EntryView.Releases.signalled
    {before after : EntryView}
    (releases : before.Releases after)
    (signalled : before.Signalled) :
    after.Signalled ∧ before.DropsSet after := by
  obtain ⟨commit, entries⟩ := releases
  refine ⟨fun logIdx entry found below => ?_,
    fun logIdx entry found dropped => ?_⟩
  · obtain ⟨old, held, same | ⟨released, -⟩⟩ := entries logIdx entry found
    · rw [same]
      exact signalled logIdx old held (commit ▸ below)
    · simp [released]
  · obtain ⟨old, held, same | ⟨-, below⟩⟩ := entries logIdx entry found
    · exact ⟨old, held, by simp [← same, dropped]⟩
    · exact ⟨old, held, signalled logIdx old held below⟩

/-- Applying releases commands and sinks. -/
theorem applyPendingLoop_releases :
    ∀ bound (server : Server),
      server.entryView.Covered →
      server.entryView.Releases
        (applyPendingLoop server.oldestLogIndex bound server).entryView := by
  intro bound
  induction bound with
  | zero =>
      intro server _
      exact ⟨rfl, fun logIdx entry found => ⟨entry, found, Or.inl rfl⟩⟩
  | succ bound inductionHypothesis =>
      intro server covered
      unfold applyPendingLoop
      split
      · rename_i allowed
        simp only [Server.canApply, Bool.and_eq_true,
          decide_eq_true_eq] at allowed
        have inMemory : server.entryView.oldest ≤ server.raft.lastApplied :=
          allowed.1.1
        have log := applyEntry_log inMemory
        have sameEntries :
            ∀ logIdx,
              server.applyEntry.entryView.entryAt? logIdx =
                (server.entryView.change server.raft.lastApplied
                  Entry.release).entryAt? logIdx := by
          intro logIdx
          show EntryView.entryAt?
            { server.applyEntry.entryView with
              log := server.applyEntry.raft.log } logIdx = _
          rw [log]
          rfl
        have after : server.applyEntry.entryView.Covered := by
          obtain ⟨sentinel, bounded⟩ := covered.change
            server.raft.lastApplied Entry.release
          rw [← log] at sentinel bounded
          exact ⟨sentinel, bounded⟩
        have sameOldest :
            server.applyEntry.oldestLogIndex = server.oldestLogIndex := by
          show sub64 _ ((server.raft.log.modify _ _).length - 1) = _
          rw [List.length_modify]
          rfl
        obtain ⟨commit, entries⟩ :=
          inductionHypothesis server.applyEntry after
        rw [sameOldest] at commit entries
        refine ⟨commit, fun logIdx entry found => ?_⟩
        obtain ⟨middle, held, effect⟩ := entries logIdx entry found
        rw [sameEntries, EntryView.change_entry inMemory] at held
        split at held
        · rename_i here
          obtain ⟨old, heldBefore, rfl⟩ := Option.map_eq_some_iff.mp held
          refine ⟨old, heldBefore, Or.inr ⟨?_, here ▸ allowed.2⟩⟩
          rcases effect with same | ⟨released, -⟩
          · exact same
          · exact released
        · exact ⟨middle, held, effect⟩
      · exact ⟨rfl, fun logIdx entry found => ⟨entry, found, Or.inl rfl⟩⟩

/-- `apply_pending` drops pointers up to the commit index only. -/
theorem applyCommitted_signalled
    {server : Server}
    (covered : server.entryView.Covered)
    (signalled : server.entryView.Signalled) :
    server.applyCommitted.entryView.Signalled ∧
      server.entryView.DropsSet server.applyCommitted.entryView := by
  unfold Server.applyCommitted
  split
  · exact (applyPendingLoop_releases _ server covered).signalled signalled
  · exact EntryView.signalled_of_same (fun _ => rfl) rfl signalled

/-- Garbage collection drops signalled entries only. -/
theorem collectGarbage_signalled
    {server : Server}
    (covered : server.entryView.Covered)
    (signalled : server.entryView.Signalled) :
    server.collectGarbage.entryView.Signalled ∧
      server.entryView.DropsSet server.collectGarbage.entryView := by
  rcases collectGarbage_entryView server with
    same | ⟨removed, fits, -, trimmed⟩
  · rw [same]
    exact EntryView.signalled_of_same (fun _ => rfl) rfl signalled
  · rw [trimmed]
    exact covered.trim_signalled fits signalled

theorem EntryView.Releases.drops
    {before middle after : EntryView}
    (releases : before.Releases middle)
    (signalled : before.Signalled)
    (drops : middle.DropsSet after) :
    before.DropsSet after := by
  intro logIdx entry found dropped
  obtain ⟨old, held, set⟩ := drops logIdx entry found dropped
  obtain ⟨oldest, heldBefore, same | ⟨-, below⟩⟩ :=
    releases.2 logIdx old held
  · exact ⟨oldest, heldBefore, same ▸ set⟩
  · exact ⟨oldest, heldBefore, signalled logIdx oldest heldBefore below⟩

/-- The apply loop of `become_leader` leaves the entries alone. -/
theorem applyLoaded_entries
    (oldest : Nat) :
    ∀ bound (server : Server),
      (applyLoaded oldest bound server).raft.log = server.raft.log ∧
        (applyLoaded oldest bound server).ring = server.ring ∧
          (applyLoaded oldest bound server).raft.commitIndex =
            server.raft.commitIndex := by
  intro bound server
  obtain ⟨lastApplied, statemachine, same⟩ :=
    applyLoaded_only oldest bound server
  rw [same]
  exact ⟨rfl, rfl, rfl⟩

/-- Loading a deferred command keeps the signal of its entry. -/
theorem loadDeferred_committed
    (load : Nat → Option (List UInt8))
    (entry : Entry) :
    (loadDeferred load entry).committed = entry.committed := by
  unfold loadDeferred
  split
  · cases load entry.ringSlot <;> rfl
  · rfl

/-- The entries that `become_leader` has loaded and applied. -/
def Server.readied
    (server : Server)
    (load : Nat → Option (List UInt8)) :
    Server :=
  (server.takeLead.loadDeferredEntries load).applyLoadedEntries

theorem readied_entries
    (server : Server)
    (load : Nat → Option (List UInt8)) :
    (server.readied load).entryView.log =
        server.raft.log.take 1 ++
          (server.raft.log.drop 1).map (loadDeferred load) ∧
      (server.readied load).entryView.tail = server.entryView.tail ∧
        (server.readied load).entryView.commit =
          server.entryView.commit := by
  obtain ⟨log, ring, commit⟩ := applyLoaded_entries
    (server.takeLead.loadDeferredEntries load).oldestLogIndex
    ((server.takeLead.loadDeferredEntries load).ring.tailLogIndex -
      (server.takeLead.loadDeferredEntries load).raft.lastApplied)
    (server.takeLead.loadDeferredEntries load)
  refine ⟨log, ?_, commit⟩
  have tail := congrArg RingLog.tailLogIndex ring
  exact tail.trans (rebuildSlotStatesFromMap_tailLogIndex server.ring)

theorem readied_length
    (server : Server)
    (load : Nat → Option (List UInt8)) :
    (server.readied load).entryView.log.length =
      server.entryView.log.length := by
  rw [(readied_entries server load).1, List.length_append, List.length_map,
    List.length_take, List.length_drop]
  show _ = server.raft.log.length
  omega

theorem readied_oldest
    (server : Server)
    (load : Nat → Option (List UInt8)) :
    (server.readied load).entryView.oldest = server.entryView.oldest := by
  rw [EntryView.oldest, readied_length, (readied_entries server load).2.1]
  rfl

/-- Loading deferred commands keeps the signals. -/
theorem readied_releases
    (server : Server)
    (load : Nat → Option (List UInt8)) :
    server.entryView.Releases (server.readied load).entryView := by
  obtain ⟨log, -, commit⟩ := readied_entries server load
  refine ⟨commit, fun logIdx entry found => ?_⟩
  have inMemory := EntryView.oldest_le_of_entry found
  rw [readied_oldest] at inMemory
  rw [EntryView.entryAt?, readied_oldest, if_pos inMemory, log] at found
  have position :
      logIdx + 1 - server.entryView.oldest =
        1 + (logIdx - server.entryView.oldest) := by
    omega
  rw [EntryView.entryAt?, if_pos inMemory, position]
  rw [position] at found
  show ∃ old, server.raft.log[_]? = some old ∧ _
  cases whole : server.raft.log with
  | nil =>
      rw [whole] at found
      simp at found
  | cons sentinel rest =>
      rw [whole] at found
      rw [Nat.add_comm] at found ⊢
      simp only [List.take_succ_cons, List.take_zero, List.drop_succ_cons,
        List.drop_zero, List.singleton_append, List.getElem?_cons_succ,
        List.getElem?_map, Option.map_eq_some_iff] at found ⊢
      obtain ⟨old, held, rfl⟩ := found
      exact ⟨old, held, Or.inl (loadDeferred_committed load old)⟩

/-- `become_leader` appends its no-op entry and touches no signal. -/
theorem promote_signalled
    {server : Server}
    (load : Nat → Option (List UInt8))
    (covered : server.entryView.Covered)
    (committed : server.entryView.commit < server.entryView.tail)
    (signalled : server.entryView.Signalled) :
    (server.promote load).entryView.Signalled ∧
      server.entryView.DropsSet (server.promote load).entryView := by
  obtain ⟨-, tail, commit⟩ := readied_entries server load
  have releases := readied_releases server load
  have ready : (server.readied load).entryView.Covered := by
    refine ⟨?_, ?_⟩
    · rw [readied_length]
      exact covered.sentinel
    · rw [readied_length, tail]
      exact covered.covered
  have pushed :
      (server.promote load).entryView =
        (server.readied load).entryView.push
          [{ term := (server.readied load).raft.currentTerm }] :=
    rfl
  rw [pushed]
  have inLog :
      (server.readied load).entryView.commit <
        (server.readied load).entryView.tail := by
    rw [tail, commit]
    exact committed
  obtain ⟨after, drops⟩ := ready.push_signalled inLog
    (show ∀ entry ∈
      ([{ term := (server.readied load).raft.currentTerm }] : List Entry),
      entry.committed = some false by simp)
    (releases.signalled signalled).1
  exact ⟨after, releases.drops signalled drops⟩

/-- A step that leaves the commit index to the leader keeps the signals. -/
theorem Process.EntryStep.signalled
    {proc : Process}
    {server : Server}
    {act : Act}
    {after : EntryView}
    (step : proc.EntryStep server act after)
    (covered : server.entryView.Covered)
    (committed : server.entryView.commit < server.entryView.tail)
    (unraised :
      act.isAppendHandler = true → after.commit = server.entryView.commit)
    (fits :
      ∀ index src pending,
        act = .handleAppendFinish index true →
        proc.threads[index]? = some (.appendHandler src pending) →
        pending.Fits server.view ∧ pending.Reaches)
    (signalled : server.entryView.Signalled) :
    after.Signalled ∧ server.entryView.DropsSet after := by
  cases step with
  | kept =>
      exact EntryView.signalled_of_same (fun _ => rfl) rfl signalled
  | bumped _ =>
      unfold EntryView.bump
      split
      · exact EntryView.signalled_of_same (fun _ => rfl) rfl signalled
      · exact EntryView.signalled_of_same (fun _ => rfl) rfl signalled
  | handled handled =>
      exact handled.signalled covered committed (unraised rfl) signalled
  | finished found =>
      obtain ⟨fit, reaches⟩ := fits _ _ _ rfl found
      exact EntryView.complete_signalled covered committed fit reaches
        (unraised rfl) signalled
  | campaigned _ =>
      exact EntryView.signalled_of_same (fun _ => rfl) rfl signalled
  | promoted _ _ =>
      exact promote_signalled _ covered committed signalled
  | committed _ _ _ inLog =>
      exact commitTo_signalled covered inLog signalled
  | appended _ =>
      refine covered.push_signalled committed ?_ signalled
      intro entry member
      obtain ⟨command, -, rfl⟩ := List.mem_map.mp member
      rfl
  | applied =>
      exact applyCommitted_signalled covered signalled
  | collected =>
      exact collectGarbage_signalled covered signalled

/-- A process, with what its append handlers have done since it was started. -/
structure Watched where
  proc : Process
  /-- A handler has raised `commit_index` or has appended on a moved tail. -/
  stale : Bool := false

/-- One step of a watched process. -/
def Watched.advance
    (watched : Watched)
    (input : Input) :
    Option Watched :=
  (watched.proc.advance input).map fun next =>
    { proc := next
      stale := !input.act.isRestart &&
        (watched.stale || !watched.proc.node.tailUnmoved input.act ||
          (input.act.isAppendHandler &&
            decide (next.server.raft.commitIndex ≠
              watched.proc.server.raft.commitIndex))) }

/-- The handler that finishes here raises `commit_index` or finds a moved tail. -/
def Process.finishesAstray
    (proc : Process) :
    Act → Bool
  | .handleAppendFinish index true =>
      match proc.threads[index]? with
      | some (.appendHandler _ pending) =>
          !decide (pending.Fits proc.server.view) ||
            (decide (proc.server.raft.commitIndex <
                pending.req.leaderCommit) &&
              decide (proc.server.raft.commitIndex + 1 <
                (proc.server.buildLog pending.req pending.newTail
                  pending.skipEntries).ring.tailLogIndex))
      | _ => false
  | _ => false

/--
Once an append handler has raised `commit_index`, or has appended on a moved
tail, the process wins no election, and neither happens to a leader.
-/
def signalsKept
    (watched : Watched)
    (input : Input) :
    Bool :=
  !(watched.stale && watched.proc.node.wins input.act) &&
    !(decide (watched.proc.server.raft.state = .leader) &&
      watched.proc.finishesAstray input.act)

/-- What holds of a watched process in every run under the condition. -/
structure Watched.Sound (watched : Watched) : Prop where
  wellformed : watched.proc.Wellformed
  reach : watched.proc.node.HandlersReach
  indexed :
    watched.stale = false → watched.proc.halted = false →
      watched.proc.server.view.Indexed
  signalled :
    watched.stale = false → watched.proc.server.entryView.Signalled
  deposed :
    watched.stale = true → watched.proc.server.raft.state ≠ .leader

/-- The representation invariant, for whole entries. -/
theorem View.Indexed.covered_entries
    {server : Server}
    (indexed : server.view.Indexed) :
    server.entryView.Covered ∧
      server.entryView.commit < server.entryView.tail := by
  have sentinel := indexed.sentinel
  have covered := indexed.covered
  have committed := indexed.committed
  have length : server.view.log.length = server.entryView.log.length := by
    simp [Server.view, Server.entryView]
  have tail : server.view.tail = server.entryView.tail := rfl
  have commit : server.view.commit = server.entryView.commit := rfl
  exact ⟨⟨by omega, by omega⟩, by omega⟩

/-- After a restart there is no entry behind the sentinel. -/
theorem Process.Does.restart_empty
    {proc : Process}
    {kernel : KernelAnswers}
    {cacheLost : Bool}
    {result : Process × Outputs}
    (does : proc.Does (.restart kernel cacheLost) result)
    (logIdx : Nat) :
    result.1.server.entryView.entryAt? logIdx = none := by
  have short : result.1.server.entryView.log.length ≤ 1 := by
    have length :
        result.1.node.view.log.length =
          result.1.server.entryView.log.length := by
      simp [Process.node, Server.view, Server.entryView]
    rw [← length]
    unfold Process.Does at does
    generalize result.1.node = after at does
    generalize result.2 = outputs at does
    cases does with
    | restarted =>
        exact le_refl _
    | restartThrew =>
        exact Nat.zero_le _
  unfold EntryView.entryAt?
  split
  · exact List.getElem?_eq_none (by omega)
  · rfl

/-- A restart clears the log and the record of the handlers. -/
theorem Watched.Sound.restart
    {watched : Watched}
    {outcomes : IoOutcomes}
    {kernel : KernelAnswers}
    {cacheLost : Bool}
    {result : Process × Outputs}
    (sound : watched.Sound)
    (stepped :
      watched.proc.step outcomes (.restart kernel cacheLost) =
        some result) :
    ({ proc := result.1, stale := false } : Watched).Sound := by
  have does := Process.step_does sound.wellformed stepped
  refine {
    wellformed := Process.step_wellformed sound.wellformed stepped
    reach := Node.Step.handlersReach does sound.reach
    indexed := fun _ running => ?_
    signalled := fun _ logIdx entry found => ?_
    deposed := fun stale => by cases stale }
  · have halted : result.1.node.halted = false := running
    show result.1.node.view.Indexed
    unfold Process.Does at does
    generalize result.1.node = after at does halted
    generalize result.2 = outputs at does
    cases does with
    | restarted =>
        exact ⟨Nat.one_pos, le_refl _, le_refl _⟩
    | restartThrew =>
        cases halted
  · rw [does.restart_empty] at found
    cases found

/-- A handler that does not finish astray leaves the commit index alone. -/
theorem Process.commit_of_not_astray
    {proc : Process}
    {index src : Nat}
    {pending : PendingAppend}
    {slot : Nat}
    (found : proc.threads[index]? = some (.appendHandler src pending))
    (inOrder :
      proc.finishesAstray (.handleAppendFinish index true) = false)
    (committed :
      proc.server.entryView.commit < proc.server.entryView.tail)
    (reaches : pending.Reaches) :
    (proc.server.entryView.complete slot pending).commit =
      proc.server.entryView.commit := by
  simp only [Process.finishesAstray, found, Bool.or_eq_false_iff,
    Bool.not_eq_false', decide_eq_true_eq, Bool.and_eq_false_iff,
    decide_eq_false_iff_not, Nat.not_lt] at inOrder
  obtain ⟨fits, unraised⟩ := inOrder
  have tail :
      (proc.server.buildLog pending.req pending.newTail
          pending.skipEntries).ring.tailLogIndex =
        (proc.server.entryView.buildLog slot pending.req pending.newTail
          pending.skipEntries).tail := by
    have built := congrArg EntryView.tail
      (buildLog_entryView proc.server pending.req pending.newTail
        pending.skipEntries)
    refine Eq.trans built ?_
    unfold EntryView.buildLog
    split <;> rfl
  have commit :
      (proc.server.entryView.buildLog slot pending.req pending.newTail
          pending.skipEntries).commit = proc.server.raft.commitIndex := by
    unfold EntryView.buildLog
    split <;> rfl
  have longer :
      proc.server.entryView.tail ≤
        (proc.server.entryView.buildLog slot pending.req pending.newTail
          pending.skipEntries).tail := by
    unfold EntryView.buildLog
    split
    · rename_i whole
      have here : proc.server.entryView.tail = _ := fits whole
      rw [here]
      exact Nat.add_le_add_left (Nat.le_of_lt reaches) _
    · exact le_refl _
  rw [tail] at unraised
  have same : proc.server.entryView.commit = proc.server.raft.commitIndex :=
    rfl
  rw [EntryView.complete, EntryView.followCommit, commit, same]
  rw [same] at committed
  dsimp only
  split
  · rename_i higher
    rcases unraised with low | low
    · omega
    · omega
  · rfl

/-- A handler that leaves a leader behind leaves the commit index alone. -/
theorem Process.EntryStep.leader_commit
    {proc : Process}
    {server : Server}
    {act : Act}
    {after : EntryView}
    (step : proc.EntryStep server act after)
    (handler : act.isAppendHandler = true)
    (same : server.entryView = proc.server.entryView)
    (committed :
      proc.server.entryView.commit < proc.server.entryView.tail)
    (reach : proc.node.HandlersReach)
    (inOrder : proc.finishesAstray act = false)
    (leader : after.role = .leader) :
    after.commit = server.entryView.commit := by
  cases step with
  | kept =>
      rfl
  | bumped message =>
      cases act with
      | handleAppend src req =>
          cases message
      | handleAppendFinish index copied =>
          cases message
      | _ =>
          cases handler
  | handled handled =>
      cases handled with
      | demoted higher =>
          rw [EntryView.bump, if_pos higher]
          rfl
      | met =>
          unfold EntryView.meet EntryView.stepDown EntryView.bump
            EntryView.demote
          split_ifs <;> rfl
      | followed follower =>
          exact absurd (leader.symm.trans follower) (by decide)
      | @completed pending follower _ _ _ _ _ =>
          have role :
              ∀ view : EntryView, ∀ slot : Nat,
                (view.complete slot pending).role = view.role := by
            intro view slot
            unfold EntryView.complete EntryView.followCommit
              EntryView.buildLog
            split <;> rfl
          rw [role, follower] at leader
          cases leader
  | finished found =>
      rw [same]
      exact Process.commit_of_not_astray found inOrder committed
        (reach _ _ (List.mem_of_getElem? found))
  | campaigned _ =>
      cases handler
  | promoted _ _ =>
      cases handler
  | committed _ _ _ _ =>
      cases handler
  | appended _ =>
      cases handler
  | applied =>
      cases handler
  | collected =>
      cases handler

theorem Process.tailUnmoved_of_not_astray
    {proc : Process}
    {act : Act}
    (inOrder : proc.finishesAstray act = false) :
    proc.node.tailUnmoved act = true := by
  cases act with
  | handleAppendFinish index copied =>
      cases copied with
      | false =>
          rfl
      | true =>
          unfold Node.tailUnmoved
          unfold Process.finishesAstray at inOrder
          show (match proc.threads[index]? with
            | some (.appendHandler _ pending) =>
                decide (pending.Fits proc.server.view)
            | _ => true) = true
          split
          · rename_i found
            simp only [found, Bool.or_eq_false_iff,
              Bool.not_eq_false'] at inOrder
            exact inOrder.1
          · rfl
  | _ =>
      rfl

/-- Every step under the condition keeps the signals. -/
theorem Watched.Sound.step
    {watched next : Watched}
    {input : Input}
    (sound : watched.Sound)
    (allowed : signalsKept watched input = true)
    (advanced : watched.advance input = some next) :
    next.Sound ∧
      (next.stale = false →
        (∀ logIdx, next.proc.server.entryView.entryAt? logIdx = none) ∨
          input.act.isRestart = false ∧ watched.stale = false ∧
            watched.proc.server.entryView.DropsSet
              next.proc.server.entryView) := by
  obtain ⟨proc, stepOf, rfl⟩ := Option.map_eq_some_iff.mp advanced
  obtain ⟨result, stepped, rfl⟩ := Option.map_eq_some_iff.mp stepOf
  cases restarts : input.act.isRestart with
  | true =>
      cases act : input.act with
      | restart kernel cacheLost =>
          rw [act] at stepped
          have does := Process.step_does sound.wellformed stepped
          exact ⟨sound.restart stepped,
            fun _ => Or.inl does.restart_empty⟩
      | _ =>
          rw [act] at restarts
          cases restarts
  | false =>
      have noRestart := Act.not_restart restarts
      have running := Process.running_of_step stepped noRestart
      have does := Process.step_does sound.wellformed stepped
      have wellformed := Process.step_wellformed sound.wellformed stepped
      have reach := Node.Step.handlersReach does sound.reach
      have entries := Process.step_entries
        (List.length_pos_of_ne_nil fun empty =>
          sound.wellformed.sentinel running
            (show watched.proc.server.raft.log.map Entry.term = [] by
              rw [show watched.proc.server.raft.log = [] from empty]
              rfl))
        stepped noRestart
      simp only [signalsKept, Bool.and_eq_true, Bool.not_eq_true',
        Bool.and_eq_false_iff, decide_eq_false_iff_not] at allowed
      obtain ⟨noWin, inOrder⟩ := allowed
      simp only [Bool.not_false, Bool.true_and]
      generalize staleAfter :
        (watched.stale || !watched.proc.node.tailUnmoved input.act ||
          (input.act.isAppendHandler &&
            decide (result.1.server.raft.commitIndex ≠
              watched.proc.server.raft.commitIndex))) = stale
      cases stale with
      | false =>
          simp only [Bool.or_eq_false_iff, Bool.not_eq_false',
            Bool.and_eq_false_iff, decide_eq_false_iff_not,
            not_not] at staleAfter
          obtain ⟨⟨fresh, unmoved⟩, unraised⟩ := staleAfter
          have indexed := sound.indexed fresh running
          obtain ⟨covered, committed⟩ := indexed.covered_entries
          have kept := entries.signalled covered committed
            (fun handler =>
              unraised.resolve_left (by simp [handler]))
            (fun index src pending act found => by
              rw [act] at unmoved
              exact ⟨Node.fits_of_tailUnmoved unmoved found,
                sound.reach _ _ (List.mem_of_getElem? found)⟩)
            (sound.signalled fresh)
          refine ⟨?_, fun _ => Or.inr ⟨trivial, fresh, kept.2⟩⟩
          exact {
            wellformed := wellformed
            reach := reach
            indexed := fun _ _ =>
              Node.Step.indexed does indexed sound.reach unmoved noRestart
            signalled := fun _ => kept.1
            deposed := fun stale => by cases stale }
      | true =>
          refine ⟨?_, fun fresh => by cases fresh⟩
          refine {
            wellformed := wellformed
            reach := reach
            indexed := fun fresh => by cases fresh
            signalled := fun fresh => by cases fresh
            deposed := fun _ leader => ?_ }
          rcases Node.Step.leads_or_wins does noRestart leader with
            ⟨leads, -⟩ | ⟨wins, -⟩
          · have fresh : watched.stale = false :=
              Bool.eq_false_iff.mpr fun stale => sound.deposed stale leads
            have astray :=
              inOrder.resolve_left (not_not.mpr leads)
            obtain ⟨-, committed⟩ :=
              (sound.indexed fresh running).covered_entries
            simp only [fresh,
              Process.tailUnmoved_of_not_astray astray, Bool.not_true,
              Bool.or_false, Bool.false_or, Bool.and_eq_true,
              decide_eq_true_eq] at staleAfter
            exact staleAfter.2 (entries.leader_commit staleAfter.1 rfl
              committed sound.reach astray leader)
          · have stays := noWin.resolve_right (by simp [wins])
            cases act : input.act with
            | main expired load =>
                rw [act, stays] at staleAfter
                cases staleAfter
            | _ =>
                rw [act] at wins
                cases wins

/-- A booted process has no entry behind the sentinel. -/
theorem boot_watched
    {n : Nat}
    (members : Membership n)
    (settings : Fin n → Settings)
    (node : Fin n) :
    ({ proc := members.boot settings node } : Watched).Sound ∧
      ∀ logIdx,
        (members.boot settings node).server.entryView.entryAt? logIdx =
          none := by
  obtain ⟨halted, fresh⟩ := boot_node members settings node
  have running : (members.boot settings node).halted = halted :=
    congrArg Node.halted fresh
  have viewed : (members.boot settings node).server.view = _ :=
    congrArg Node.view fresh
  have threads : (members.boot settings node).node.threads = [] := by
    rw [fresh]
    rfl
  have empty :
      ∀ logIdx,
        (members.boot settings node).server.entryView.entryAt? logIdx =
          none := by
    intro logIdx
    have length :
        (members.boot settings node).server.entryView.log.length ≤ 1 := by
      have logged := congrArg (fun view => view.log.length) viewed
      simp only [Server.view, List.length_map] at logged
      show (members.boot settings node).server.raft.log.length ≤ 1
      rw [logged]
      cases halted with
      | false => exact le_refl _
      | true => exact Nat.zero_le _
    unfold EntryView.entryAt?
    split
    · exact List.getElem?_eq_none (by omega)
    · rfl
  refine ⟨?_, empty⟩
  exact {
    wellformed := boot_wellformed members settings node
    reach := by
      intro src pending held
      rw [threads] at held
      cases held
    indexed := by
      intro _ started
      rw [running] at started
      rw [viewed, started]
      exact ⟨Nat.one_pos, le_refl _, le_refl _⟩
    signalled := by
      intro _ logIdx entry found
      rw [empty] at found
      cases found
    deposed := fun stale => by cases stale }

/-- The signal of the index was set earlier in the run, before any restart. -/
def SetEarlier
    (start : Watched)
    (inputs : List Input)
    (logIdx : Nat) : Prop :=
  ∃ earlier later middle entry,
    inputs = earlier ++ later ∧
      (∀ input ∈ later, input.act.isRestart = false) ∧
        runWhile signalsKept Watched.advance start earlier = some middle ∧
          middle.proc.server.entryView.entryAt? logIdx = some entry ∧
            entry.committed = some true

/-- Every pointer that is gone had its signal set. -/
theorem dropped_after_set
    {start : Watched}
    (sound : start.Sound)
    (empty :
      ∀ logIdx, start.proc.server.entryView.entryAt? logIdx = none)
    (inputs : List Input) :
    ∀ {final : Watched},
      runWhile signalsKept Watched.advance start inputs = some final →
      final.Sound ∧
        (final.stale = false →
          ∀ logIdx entry,
            final.proc.server.entryView.entryAt? logIdx = some entry →
            entry.committed = none →
            SetEarlier start inputs logIdx) := by
  induction inputs using List.reverseRecOn with
  | nil =>
      intro final run
      rw [runWhile, Option.some.injEq] at run
      rw [← run]
      refine ⟨sound, fun _ logIdx entry found => ?_⟩
      rw [empty] at found
      cases found
  | append_singleton inputs input inductionHypothesis =>
      intro final run
      obtain ⟨middle, reached, allowed, advanced⟩ := runWhile_concat run
      obtain ⟨before, traced⟩ := inductionHypothesis reached
      obtain ⟨after, origin⟩ := before.step allowed advanced
      refine ⟨after, fun fresh logIdx entry found dropped => ?_⟩
      rcases origin fresh with none | ⟨goesOn, freshBefore, drops⟩
      · rw [none] at found
        cases found
      · obtain ⟨old, held, set⟩ := drops logIdx entry found dropped
        cases committed : old.committed with
        | none =>
            obtain ⟨earlier, later, state, item, rfl, along, rest⟩ :=
              traced freshBefore logIdx old held committed
            refine ⟨earlier, later ++ [input], state, item,
              List.append_assoc _ _ _, ?_, rest⟩
            intro other member
            rcases List.mem_append.mp member with inside | last
            · exact along other inside
            · rw [List.mem_singleton.mp last]
              exact goesOn
        | some signalled =>
            cases signalled with
            | false =>
                exact absurd committed set
            | true =>
                refine ⟨inputs, [input], middle, old, rfl, ?_, reached,
                  held, committed⟩
                intro other member
                rw [List.mem_singleton.mp member]
                exact goesOn

/--
No lost commit signal: in every run in which the process wins no election once
an append handler has raised `commit_index` or has appended on a moved tail,
and in which neither happens to a leader, every entry of a leader up to
`commit_index` has its signal set, or had it set before `apply_pending`
dropped the pointer.
-/
theorem commit_signals_not_lost
    {n : Nat}
    {members : Membership n}
    {settings : Fin n → Settings}
    {node : Fin n}
    {inputs : List Input}
    {final : Watched}
    (run :
      runWhile signalsKept Watched.advance
        { proc := members.boot settings node } inputs = some final)
    (leader : final.proc.server.raft.state = .leader)
    {logIdx : Nat}
    {entry : Entry}
    (found : final.proc.server.entryView.entryAt? logIdx = some entry)
    (committed : logIdx ≤ final.proc.server.raft.commitIndex) :
    entry.committed = some true ∨
      entry.committed = none ∧
        SetEarlier { proc := members.boot settings node } inputs logIdx := by
  obtain ⟨sound, empty⟩ := boot_watched members settings node
  obtain ⟨after, traced⟩ := dropped_after_set sound empty inputs run
  have fresh : final.stale = false :=
    Bool.eq_false_iff.mpr fun stale => after.deposed stale leader
  have signalled := after.signalled fresh logIdx entry found committed
  cases state : entry.committed with
  | none =>
      exact Or.inr ⟨rfl, traced fresh logIdx entry found state⟩
  | some set =>
      cases set with
      | true =>
          exact Or.inl rfl
      | false =>
          exact absurd state signalled

/-- The sections of `main_loop` and the vote that win term 3. -/
def thirdTerm : List Input :=
  [{ act := mainAct false }, { act := mainAct true }, { act := mainAct false },
   { act := mainAct false }, { act := .voteSend 1 },
   { act := .voteReply 1 { term := 3, voteGranted := true } },
   { act := mainAct false }, { act := mainAct false }, { act := mainAct false }]

/-- The first leader applies two commands, is deposed and leads again. -/
def regainedLead : List Input :=
  firstLead ++ appliedCommands ++
    { act := .handleVote 1
        { term := 2, candidateId := 2, lastLogIndex := 0, lastLogTerm := 0 } }
      :: thirdTerm

/-- The entries of the first leadership were signalled in it. -/
theorem regained_lead_signalled :
    ∃ final entry,
      runWhile signalsKept Watched.advance { proc := firstNode }
          regainedLead = some final ∧
        final.proc.server.raft.state = .leader ∧
          final.proc.server.entryView.entryAt? 3 = some entry ∧
            (entry.committed = some true ∨
              entry.committed = none ∧
                SetEarlier { proc := firstNode } regainedLead 3) := by
  obtain ⟨final, run, passes⟩ :
      ∃ final,
        runWhile signalsKept Watched.advance { proc := firstNode }
            regainedLead = some final ∧
          (decide (final.proc.server.raft.state = .leader ∧
              3 ≤ final.proc.server.raft.commitIndex) &&
            (final.proc.server.entryView.entryAt? 3).isSome) = true :=
    runWhile_exists (by decide +kernel)
  obtain ⟨state, held⟩ := Bool.and_eq_true_iff.mp passes
  obtain ⟨leader, committed⟩ := of_decide_eq_true state
  obtain ⟨entry, found⟩ := Option.isSome_iff_exists.mp held
  exact ⟨final, entry, run, leader, found,
    commit_signals_not_lost run leader found committed⟩

/-- In every run a leader has signalled its entries up to the commit index. -/
def SignalsNeverLost (start : Process) : Prop :=
  ∀ inputs final logIdx entry,
    start.Reaches inputs final →
    final.server.raft.state = .leader →
    final.server.entryView.entryAt? logIdx = some entry →
    logIdx ≤ final.server.raft.commitIndex →
    entry.committed ≠ some false

/-- A heartbeat of term 2 that brings the commit index 2. -/
def committingHeartbeat : AppendEntriesRequest where
  term := 2
  leaderId := 2
  prevLogIndex := 2
  prevLogTerm := 1
  leaderCommit := 2
  leaderPbaSrc := 0
  logBlockLength := 0
  numEntries := 0
  slotsPerEntry := 0
  startSlot := 0
  leaderDevIndex := 1
  entryMetas := []

/--
The entry of a client is committed by a heartbeat of the next leader, and the
node leads again before the client looks at its role.
-/
def committedByOther : List Input :=
  firstLead ++
    { act := .apply 7 [[1]] } ::
      { act := .handleAppend 1 committingHeartbeat } :: thirdTerm

/-- The client of the entry at index 2 waits for a signal that never comes. -/
theorem committed_entry_not_signalled :
    ¬ SignalsNeverLost firstNode := by
  intro never
  obtain ⟨final, run, passes⟩ :
      ∃ final,
        runWhile (fun _ _ => true) Process.advance firstNode
            committedByOther = some final ∧
          (decide (final.server.raft.state = .leader ∧
              2 ≤ final.server.raft.commitIndex) &&
            (final.server.entryView.entryAt? 2).any fun entry =>
              decide (entry.committed = some false)) = true :=
    runWhile_exists (by decide +kernel)
  obtain ⟨state, held⟩ := Bool.and_eq_true_iff.mp passes
  obtain ⟨leader, committed⟩ := of_decide_eq_true state
  obtain ⟨entry, found, unset⟩ := (Option.any_eq_true _ _).mp held
  exact never _ final 2 entry run leader found committed
    (of_decide_eq_true unset)

end NvmeofRaft
