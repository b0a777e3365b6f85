import NvmeofRaft.ClientCalls
import NvmeofRaft.CommitRule
import NvmeofRaft.Promotion

namespace NvmeofRaft

/-!
# What the sections of a node do for its client calls

Every entry with a result sink and every result belongs to the call that has
appended it.  A call that has its signal has been committed: either it had the
signal before the section, or the section is the `advance_commit_index` of a
leader.
-/

/-- The results that a collector has got. -/
def collected
    (results : List (Nat × List UInt8))
    (sink : Nat) :
    List (List UInt8) :=
  (results.filter fun item => decide (item.1 = sink)).map Prod.snd

/-- What the node knows of a call: its commands and where they start. -/
structure Batch where
  commands : List (List UInt8)
  first : Option Nat

/-- The batch of a call. -/
def Call.batch (call : Call) : Batch where
  commands := call.commands
  first := call.first

/-- Every entry with a result sink belongs to the call that has appended it. -/
def EntryView.Owned
    (view : EntryView)
    (batches : List Batch) : Prop :=
  ∀ logIdx entry sink,
    view.entryAt? logIdx = some entry →
    entry.resultSink = some sink →
    ∃ batch first,
      batches[sink]? = some batch ∧ batch.first = some first ∧
        first ≤ logIdx ∧
          batch.commands[logIdx - first]? = some entry.command ∧
            entry.ringSlot = 0

/-- Entries and results belong to the calls that have appended them. -/
structure EntryView.Serves
    (view : EntryView)
    (batches : List Batch) : Prop where
  owned : view.Owned batches
  results :
    ∀ sink,
      collected view.results sink = [] ∨
        ∃ batch first,
          batches[sink]? = some batch ∧ batch.first = some first ∧
            (collected view.results sink).Sublist
              (nonEmptyCommands
                (batch.commands.take (view.applied - first)))

section

variable {batches : List Batch}

theorem collected_append
    (results : List (Nat × List UInt8))
    (sink other : Nat)
    (command : List UInt8) :
    collected (results ++ [(sink, command)]) other =
      collected results other ++ if sink = other then [command] else [] := by
  unfold collected
  rw [List.filter_append, List.map_append]
  by_cases same : sink = other
  · simp [same]
  · simp [same]

theorem nonEmptyCommands_take
    (commands : List (List UInt8))
    {fewer more : Nat}
    (least : fewer ≤ more) :
    (nonEmptyCommands (commands.take fewer)).Sublist
      (nonEmptyCommands (commands.take more)) :=
  (List.take_sublist_take_left least).filter _

/-- Applying further takes no result back. -/
theorem EntryView.Serves.forward
    {view after : EntryView}
    (serves : view.Serves batches)
    (owned : after.Owned batches)
    (results : after.results = view.results)
    (applied : view.applied ≤ after.applied) :
    after.Serves batches := by
  refine ⟨owned, fun sink => ?_⟩
  rw [results]
  rcases serves.results sink with none | ⟨batch, first, found, start, within⟩
  · exact Or.inl none
  · exact Or.inr ⟨batch, first, found, start,
      within.trans (nonEmptyCommands_take _ (by omega))⟩

theorem logAt_entryAt
    {server : Server}
    {logIdx : Nat}
    (covered : server.entryView.Covered)
    (inMemory : server.oldestLogIndex ≤ logIdx)
    (below : logIdx < server.ring.tailLogIndex) :
    server.entryView.entryAt? logIdx = some (server.logAt logIdx) := by
  have inLog : logIdx + 1 - server.oldestLogIndex < server.raft.log.length :=
    covered.position_lt inMemory below
  have slice :
      server.logSlice logIdx = logIdx + 1 - server.oldestLogIndex :=
    sub64_of_le (Nat.le_succ_of_le inMemory)
  have found :
      server.entryView.entryAt? logIdx =
        server.raft.log[logIdx + 1 - server.oldestLogIndex]? :=
    if_pos inMemory
  rw [found, Server.logAt, slice, List.getD_eq_getElem?_getD]
  rw [List.getElem?_eq_getElem inLog]
  rfl

/-- `apply_pending` gives a result to the call of the entry. -/
theorem applyEntry_serves
    {server : Server}
    (covered : server.entryView.Covered)
    (serves : server.entryView.Serves batches)
    (allowed : server.canApply server.oldestLogIndex = true) :
    server.applyEntry.entryView.Serves batches := by
  have owned : server.applyEntry.entryView.Owned batches := by
    intro logIdx entry sink found held
    refine serves.owned logIdx entry sink ?_ held
    refine applyPendingLoop_sinks 1 server covered logIdx entry ?_ ?_
    · rwa [applyPendingLoop, if_pos allowed, applyPendingLoop]
    · rw [held]
      exact Option.some_ne_none sink
  simp only [Server.canApply, Bool.and_eq_true, decide_eq_true_eq] at allowed
  obtain ⟨⟨inMemory, below⟩, -⟩ := allowed
  have here := logAt_entryAt covered inMemory below
  have passed := applyEntry_results server
  generalize server.logAt server.raft.lastApplied = entry at here passed
  have moved :
      server.applyEntry.entryView.applied =
        server.entryView.applied + 1 :=
    rfl
  cases result : entry.job.result? with
  | none =>
      have same : server.applyEntry.results = server.results ++ [] := by
        rw [passed, resultsOf, List.filterMap_cons_none result]
        rfl
      exact serves.forward owned (same.trans (List.append_nil _))
        (moved ▸ Nat.le_succ _)
  | some item =>
      obtain ⟨sink, command⟩ := item
      obtain ⟨held, same, some⟩ :
          entry.resultSink = .some sink ∧ entry.command = command ∧
            entry.command.isEmpty = false := by
        unfold Job.result? Entry.job at result
        dsimp only at result
        split at result
        · cases result
        · rename_i full
          obtain ⟨collector, held, both⟩ := Option.map_eq_some_iff.mp result
          obtain ⟨rfl, rfl⟩ := Prod.mk.inj both
          exact ⟨held, rfl, Bool.eq_false_iff.mpr full⟩
      have grown :
          server.applyEntry.entryView.results =
            server.entryView.results ++ [(sink, command)] := by
        refine passed.trans ?_
        rw [resultsOf, List.filterMap_cons_some result]
        rfl
      refine ⟨owned, fun other => ?_⟩
      rw [grown, collected_append, moved]
      split
      · rename_i mine
        subst mine
        obtain ⟨batch, first, found, start, behind, own, -⟩ :=
          serves.owned _ _ sink here held
        refine Or.inr ⟨batch, first, found, start, ?_⟩
        have before :
            (collected server.entryView.results sink).Sublist
              (nonEmptyCommands (batch.commands.take
                (server.entryView.applied - first))) := by
          rcases serves.results sink with
            none | ⟨batch', first', found', start', within⟩
          · rw [none]
            exact List.nil_sublist _
          · rw [found', Option.some.injEq] at found
            subst found
            rw [start', Option.some.injEq] at start
            exact start ▸ within
        have count :
            server.entryView.applied + 1 - first =
              server.entryView.applied - first + 1 := by
          have behind' : first ≤ server.entryView.applied := behind
          omega
        have next :
            batch.commands[server.entryView.applied - first]? =
              .some command :=
          same ▸ own
        rw [count, List.take_add_one, next, nonEmptyCommands,
          List.filter_append]
        refine before.append ?_
        rw [same] at some
        simp [some]
      · rw [List.append_nil]
        rcases serves.results other with
          none | ⟨batch, first, found, start, within⟩
        · exact Or.inl none
        · exact Or.inr ⟨batch, first, found, start,
            within.trans (nonEmptyCommands_take _ (by omega))⟩

theorem applyPendingLoop_serves :
    ∀ bound (server : Server),
      server.entryView.Covered →
      server.entryView.Serves batches →
      (applyPendingLoop server.oldestLogIndex bound
        server).entryView.Serves batches := by
  intro bound
  induction bound with
  | zero =>
      exact fun _ _ serves => serves
  | succ bound inductionHypothesis =>
      intro server covered serves
      unfold applyPendingLoop
      split
      · rename_i allowed
        have inMemory : server.oldestLogIndex ≤ server.raft.lastApplied := by
          simp only [Server.canApply, Bool.and_eq_true,
            decide_eq_true_eq] at allowed
          exact allowed.1.1
        rw [← applyEntry_oldest server]
        exact inductionHypothesis server.applyEntry
          (applyEntry_covered covered inMemory)
          (applyEntry_serves covered serves allowed)
      · exact serves

end

/-- A call that fails so has appended nothing. -/
def ApplyError.refuses : ApplyError → Bool
  | .notLeader => true
  | .ringBufferFull => true
  | .persistFailed _ => true
  | _ => false

/-- What the point where a call stands says about its entries. -/
def Call.Consistent (call : Call) : Prop :=
  match call.pc with
  | .lockA => call.first = none
  | .ringNotFull => call.first = none
  | .signal => True
  | .unsignaled => True
  | .results => call.signaled = true
  | .returned none => call.commands = [] ∨ call.signaled = true
  | .returned (some error) => error.refuses = true → call.first = none

/-- The calls on their own. -/
structure Call.Kept (call : Call) : Prop where
  consistent : call.Consistent
  nonempty : ∀ first, call.first = some first → call.commands ≠ []

/-- What every run keeps. -/
structure CallingNode.Sound (node : CallingNode) : Prop where
  started : node.proc.Started
  indexed : node.proc.halted = false → node.proc.server.view.Indexed
  serves :
    node.proc.server.entryView.Serves (node.calls.map Call.batch)
  kept :
    ∀ (sink : Nat) (call : Call),
      node.calls[sink]? = some call → call.Kept
  observed :
    ∀ (sink : Nat) (call : Call) first,
      node.calls[sink]? = some call →
      call.first = some first →
      node.proc.server.signalSet sink (call.last first) = true →
      call.signaled = true
  committed :
    ∀ (sink : Nat) (call : Call),
      node.calls[sink]? = some call →
      call.signaled = true →
      ∃ first,
        call.first = some first ∧
          call.last first ≤ node.proc.server.raft.commitIndex

section

variable {call : Call} {sink : Nat} {server : Server}

theorem Call.first_of_batch
    {other : Call}
    (same : call.batch = other.batch) :
    call.first = other.first :=
  congrArg Batch.first same

theorem Call.last_of_batch
    {other : Call}
    (same : call.batch = other.batch)
    (first : Nat) :
    call.last first = other.last first :=
  congrArg (fun batch => first + batch.commands.length - 1) same

@[simp] theorem observe_batch :
    (call.observe sink server).batch = call.batch := by
  unfold Call.observe
  split <;> rfl

@[simp] theorem observe_commands :
    (call.observe sink server).commands = call.commands :=
  congrArg Batch.commands observe_batch

@[simp] theorem observe_first :
    (call.observe sink server).first = call.first :=
  congrArg Batch.first observe_batch

@[simp] theorem observe_pc :
    (call.observe sink server).pc = call.pc := by
  unfold Call.observe
  split <;> rfl

@[simp] theorem observe_last
    (first : Nat) :
    (call.observe sink server).last first = call.last first := by
  unfold Call.last
  rw [observe_commands]

theorem observe_signaled :
    (call.observe sink server).signaled = true ↔
      call.signaled = true ∨
        ∃ first,
          call.first = some first ∧
            server.signalSet sink (call.last first) = true := by
  unfold Call.observe
  split
  · rename_i first start
    simp [start]
  · rename_i none
    simp [none]

theorem Call.Kept.observe
    (kept : call.Kept) :
    (call.observe sink server).Kept := by
  obtain ⟨consistent, nonempty⟩ := kept
  refine ⟨?_, ?_⟩
  · unfold Call.Consistent at consistent ⊢
    rw [observe_pc, observe_first, observe_commands]
    have signaled :
        call.signaled = true →
        (call.observe sink server).signaled = true :=
      fun set => observe_signaled.mpr (Or.inl set)
    split at consistent
    all_goals first
      | exact consistent
      | exact signaled consistent
      | exact consistent.imp_right signaled
  · rw [observe_first, observe_commands]
    exact nonempty

theorem after_call
    {calls : List Call}
    {proc : Process}
    (found : (CallingNode.after calls proc).calls[sink]? = some call) :
    ∃ old,
      calls[sink]? = some old ∧ old.observe sink proc.server = call := by
  have found' :
      (calls.mapIdx fun sink call =>
        call.observe sink proc.server)[sink]? = some call :=
    found
  rw [List.getElem?_mapIdx] at found'
  exact Option.map_eq_some_iff.mp found'

end

/-- The node after a section, whose signals cover committed entries. -/
theorem sound_after
    {calls : List Call}
    {proc : Process}
    (started : proc.Started)
    (indexed : proc.halted = false → proc.server.view.Indexed)
    (serves : proc.server.entryView.Serves (calls.map Call.batch))
    (kept :
      ∀ (sink : Nat) (call : Call), calls[sink]? = some call → call.Kept)
    (committed :
      ∀ (sink : Nat) (call : Call) first,
        calls[sink]? = some call →
        call.first = some first →
        call.signaled = true ∨
            proc.server.signalSet sink (call.last first) = true →
        call.last first ≤ proc.server.raft.commitIndex)
    (appended :
      ∀ (sink : Nat) (call : Call),
        calls[sink]? = some call →
        call.signaled = true →
        ∃ first, call.first = some first) :
    (CallingNode.after calls proc).Sound := by
  have batches :
      (CallingNode.after calls proc).calls.map Call.batch =
        calls.map Call.batch := by
    refine List.ext_getElem? fun sink => ?_
    show ((calls.mapIdx _).map _)[sink]? = _
    rw [List.getElem?_map, List.getElem?_mapIdx, List.getElem?_map,
      Option.map_map]
    congr 1
    funext call
    exact observe_batch
  refine ⟨started, indexed, batches ▸ serves, ?_, ?_, ?_⟩
  · intro sink call found
    obtain ⟨old, held, rfl⟩ := after_call found
    exact (kept sink old held).observe
  · intro sink call first found start set
    obtain ⟨old, held, rfl⟩ := after_call found
    rw [observe_first] at start
    rw [observe_last] at set
    exact observe_signaled.mpr (Or.inr ⟨first, start, set⟩)
  · intro sink call found set
    obtain ⟨old, held, rfl⟩ := after_call found
    have before := observe_signaled.mp set
    obtain ⟨first, start⟩ : ∃ first, old.first = some first := by
      rcases before with set | ⟨first, start, -⟩
      · exact appended sink old held set
      · exact ⟨first, start⟩
    refine ⟨first, observe_first.trans start, ?_⟩
    rw [observe_last]
    refine committed sink old first held start (before.imp_right ?_)
    rintro ⟨first', start', set⟩
    rw [start, Option.some.injEq] at start'
    exact start' ▸ set

theorem signalSet_iff
    {server : Server}
    {sink logIdx : Nat} :
    server.signalSet sink logIdx = true ↔
      ∃ entry,
        server.entryView.entryAt? logIdx = some entry ∧
          entry.resultSink = some sink ∧ entry.committed = some true := by
  unfold Server.signalSet
  cases server.entryView.entryAt? logIdx with
  | none => simp
  | some entry => simp

theorem promote_passes
    (server : Server)
    (load : Nat → Option (List UInt8)) :
    (server.promote load).results = server.results ∧
      server.raft.lastApplied ≤ (server.promote load).raft.lastApplied := by
  refine ⟨?_, ?_⟩
  · show (Server.applyLoadedEntries _).results = _
    obtain ⟨lastApplied, statemachine, same⟩ := applyLoaded_only
      (server.takeLead.loadDeferredEntries load).oldestLogIndex
      ((server.takeLead.loadDeferredEntries load).ring.tailLogIndex -
        (server.takeLead.loadDeferredEntries load).raft.lastApplied)
      (server.takeLead.loadDeferredEntries load)
    rw [Server.applyLoadedEntries, same]
    rfl
  · obtain ⟨applied, ⟨forward, -⟩, viewed⟩ := promote_view server load
    exact forward.trans_eq (congrArg View.applied viewed).symm

/-- What a leader commits has reached a majority of the cluster. -/
theorem Server.CommitsAt.majority
    {server : Server}
    {after : EntryView}
    {logIdx : Nat}
    (commits : server.CommitsAt after logIdx) :
    server.MajorityReaches logIdx := by
  have members : 0 < server.raft.cluster.length := by
    refine List.length_pos_of_ne_nil fun none => ?_
    have low : server.majorityIndex = 0 := by
      simp [Server.majorityIndex, Server.matchIndices, none]
    have above := commits.above
    have reached := commits.reached
    omega
  refine ((majorityIndex_isGreatest members).1).trans
    (Finset.card_le_card ?_)
  intro node reaches
  simp only [Finset.mem_filter] at reaches ⊢
  exact ⟨reaches.1, commits.reached.trans reaches.2⟩

/-- The section has committed the last entry of a call. -/
structure CallingNode.CommitsCall
    (node next : CallingNode)
    (sink : Nat)
    (commands : List (List UInt8))
    (last : Nat) : Prop where
  commits : node.proc.server.CommitsAt next.proc.server.entryView last
  majority : node.proc.server.MajorityReaches last
  own :
    ∃ entry,
      next.proc.server.entryView.entryAt? last = some entry ∧
        entry.resultSink = some sink ∧
          commands.getLast? = some entry.command

/-- A call that has its signal had it before, or has just been committed. -/
def CallingNode.Traces (node next : CallingNode) : Prop :=
  ∀ (sink : Nat) (call : Call),
    next.calls[sink]? = some call →
    call.signaled = true →
    (∃ old,
        node.calls[sink]? = some old ∧ old.signaled = true ∧
          old.batch = call.batch) ∨
      ∃ first,
        call.first = some first ∧
          node.CommitsCall next sink call.commands (call.last first)

/-- The last entry of a call that is still in memory has its last command. -/
theorem EntryView.Serves.last
    {view : EntryView}
    {calls : List Call}
    {sink first : Nat}
    {call : Call}
    {entry : Entry}
    (serves : view.Serves (calls.map Call.batch))
    (found : calls[sink]? = some call)
    (start : call.first = some first)
    (nonempty : call.commands ≠ [])
    (held : view.entryAt? (call.last first) = some entry)
    (own : entry.resultSink = some sink) :
    call.commands.getLast? = some entry.command := by
  obtain ⟨batch, first', found', start', -, command, -⟩ :=
    serves.owned _ entry sink held own
  rw [List.getElem?_map, found, Option.map_some, Option.some.injEq] at found'
  subst found'
  have same : first = first' :=
    Option.some.inj (start.symm.trans start')
  subst same
  have positive := List.length_pos_of_ne_nil nonempty
  have offset :
      call.last first - first = call.commands.length - 1 := by
    unfold Call.last
    omega
  rw [List.getLast?_eq_getElem?, ← offset]
  exact command

section

variable {node : CallingNode} {outcomes : IoOutcomes} {act : Act}
variable {result : Process × Outputs}

/-- A section of the node that appends for no call. -/
theorem CallingNode.Sound.sections
    (sound : node.Sound)
    (noApply : act.isApply = false)
    (stays : act.isRestart = false)
    (unmoved : node.proc.node.tailUnmoved act = true)
    (stepped : node.proc.step outcomes act = some result) :
    (after node.calls result.1).Sound ∧
      node.Traces (after node.calls result.1) := by
  have noRestart := Act.not_restart stays
  have running := Process.running_of_step stepped noRestart
  have indexed := sound.indexed running
  obtain ⟨covered, committed⟩ := indexed.covered_entries
  have does := Process.step_does sound.started.wellformed stepped
  have forward := does.commitForward indexed sound.started.reach unmoved
    noRestart
  have raised :
      node.proc.server.raft.commitIndex ≤
        result.1.server.raft.commitIndex := by
    rcases forward with same | ⟨higher, -⟩
    · exact same.ge
    · exact higher.le
  have entries := sound.started.entryStep stepped stays
  have origin :
      ∀ logIdx entry sink,
        result.1.server.entryView.entryAt? logIdx = some entry →
        entry.resultSink = some sink →
        ∃ old,
          node.proc.server.entryView.entryAt? logIdx = some old ∧
            old.GoesOn entry
              (node.proc.server.CommitsAt result.1.server.entryView
                logIdx) := by
    intro logIdx entry sink found held
    rcases entries.origin covered (Nat.zero_lt_of_lt committed)
        (fun index src pending act running => by
          rw [act] at unmoved
          exact ⟨Node.fits_of_tailUnmoved unmoved running,
            sound.started.reach _ _ (List.mem_of_getElem? running)⟩)
        found held with
      appends | ⟨old, was, goesOn, command, signal⟩
    · obtain ⟨commands, apply, -⟩ := appends.command
      rw [apply] at noApply
      cases noApply
    · refine ⟨old, was, goesOn, command, signal.imp_right fun commits => ?_⟩
      exact ⟨commits.leader, commits.above, commits.reached, commits.inLog,
        commits.commit, commits.stays⟩
  have serves :
      result.1.server.entryView.Serves (node.calls.map Call.batch) := by
    have owned :
        result.1.server.entryView.Owned (node.calls.map Call.batch) := by
      intro logIdx entry sink found held
      obtain ⟨old, was, goesOn⟩ := origin logIdx entry sink found held
      obtain ⟨batch, first, inCalls, start, behind, own, slot⟩ :=
        sound.serves.owned logIdx old sink was (goesOn.sink.trans held)
      obtain ⟨slot', command⟩ := goesOn.command slot
      exact ⟨batch, first, inCalls, start, behind, command ▸ own, slot'⟩
    rcases entries.passes_on with
      same | ⟨-, same⟩ | ⟨expired, load, -, -, -, same⟩
    · have applied : result.1.server.entryView.applied =
          node.proc.server.entryView.applied :=
        congrArg Prod.fst same
      exact sound.serves.forward owned
        (congrArg (fun part => part.2.2) same) applied.ge
    · rw [same]
      exact applyPendingLoop_serves _ (node.proc.server.withOutcomes outcomes)
        covered sound.serves
    · obtain ⟨results, applied⟩ :=
        promote_passes (node.proc.server.withOutcomes outcomes) load
      refine sound.serves.forward owned ?_ ?_
      · rw [same]
        exact results
      · rw [same]
        exact applied
  have newly :
      ∀ (sink : Nat) (call : Call) first,
        node.calls[sink]? = some call →
        call.first = some first →
        result.1.server.signalSet sink (call.last first) = true →
        call.signaled = true ∨
          node.proc.server.CommitsAt result.1.server.entryView
            (call.last first) := by
    intro sink call first found start set
    obtain ⟨entry, held, own, signal⟩ := signalSet_iff.mp set
    obtain ⟨old, was, goesOn⟩ := origin _ entry sink held own
    rcases goesOn.signal with same | commits
    · refine Or.inl (sound.observed sink call first found start ?_)
      exact signalSet_iff.mpr
        ⟨old, was, goesOn.sink.trans own, same.symm.trans signal⟩
    · exact Or.inr commits
  have already :
      ∀ (sink : Nat) (call : Call) first,
        node.calls[sink]? = some call →
        call.first = some first →
        call.signaled = true →
        call.last first ≤ result.1.server.raft.commitIndex := by
    intro sink call first found start set
    obtain ⟨first', start', within⟩ := sound.committed sink call found set
    rw [start, Option.some.injEq] at start'
    exact (start' ▸ within).trans raised
  refine ⟨sound_after
    (@Process.Started.step _ _ { outcomes, act } sound.started
      (Option.map_eq_some_iff.mpr ⟨result, stepped, rfl⟩))
    (fun _ => does.indexed indexed sound.started.reach unmoved noRestart)
    serves sound.kept ?_ ?_, ?_⟩
  · intro sink call first found start set
    rcases set with set | set
    · exact already sink call first found start set
    · rcases newly sink call first found start set with set | commits
      · exact already sink call first found start set
      · exact commits.reached.trans_eq commits.commit.symm
  · intro sink call found set
    obtain ⟨first, start, -⟩ := sound.committed sink call found set
    exact ⟨first, start⟩
  · intro sink call found set
    obtain ⟨old, held, rfl⟩ := after_call found
    rcases observe_signaled.mp set with set | ⟨first, start, set⟩
    · exact Or.inl ⟨old, held, set, observe_batch.symm⟩
    · rcases newly sink old first held start set with already | commits
      · exact Or.inl ⟨old, held, already, observe_batch.symm⟩
      · obtain ⟨entry, inMemory, own, -⟩ := signalSet_iff.mp set
        have nonempty := (sound.kept sink old held).nonempty first start
        refine Or.inr ⟨first, observe_first.trans start, ?_⟩
        rw [observe_commands, observe_last]
        exact ⟨commits, commits.majority, entry, inMemory, own,
          serves.last held start nonempty inMemory own⟩

end

end NvmeofRaft
