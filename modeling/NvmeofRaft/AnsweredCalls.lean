import NvmeofRaft.ServedCalls

namespace NvmeofRaft

/-!
# Answered client calls

In every run of a node with its client calls whose append handlers find the
tail as they have left it: what a call that has returned says about its
commands, over any elections and restarts.
-/

section

variable {node next : CallingNode} {outcomes : IoOutcomes}
variable {index : Nat} {call : Call}

/-- What Lock A has done to the entries when it ends so. -/
def EntryView.Settled
    (view after : EntryView)
    (sink : Nat)
    (commands : List (List UInt8)) :
    ApplyOutcome → Prop
  | .emptyRequest => commands = [] ∧ after = view
  | .replicating =>
      commands ≠ [] ∧
        after = view.push (clientEntries view.term sink commands)
  | _ => after = view

/-- Lock A appends the call's entries or answers the call. -/
theorem applyCommands_settles
    (sink : Nat)
    (commands : List (List UInt8))
    (server : Server)
    (sentinel : 0 < server.entryView.log.length) :
    wp (applyCommands sink commands)
      (fun outcome final =>
        server.entryView.Settled final.entryView sink commands outcome)
      (fun _ _ => False) server := by
  have pushed := appendCommands_entryView sink commands server
  simp only [applyCommands, wp_bind, wp_get, wp_ite, wp_pure, wp_modify,
    wp_tryCatch]
  split_ifs with empty follower full
  · exact ⟨List.isEmpty_iff.mp empty, rfl⟩
  · exact rfl
  · exact rfl
  · have nonempty : commands ≠ [] :=
      fun none => empty (List.isEmpty_iff.mpr none)
    refine wp_persist_entries (fun final same => ?_) (fun exn final same => ?_)
    · exact ⟨nonempty, same.trans pushed⟩
    · have undone := popEntries_entryView sentinel
        (clientEntries server.raft.currentTerm sink commands) final
        (same.trans pushed)
      rw [clientEntries, List.length_map] at undone
      exact undone

/-- What Lock A does to the node and to its call. -/
theorem CallingNode.stepLockA_ends
    (sentinel :
      node.proc.halted = false → 0 < node.proc.server.entryView.log.length)
    (stepped : node.stepLockA index call outcomes = some next) :
    ∃ outcome result,
      node.proc.step outcomes (.apply index call.commands) = some result ∧
        next = after
          (node.calls.set index
            (call.settle node.proc.server.ring.tailLogIndex outcome))
          result.1 ∧
        node.proc.server.entryView.Settled result.1.server.entryView index
          call.commands outcome := by
  unfold stepLockA at stepped
  split at stepped
  · rename_i outcome final ran
    obtain ⟨proc, advanced, rfl⟩ := Option.map_eq_some_iff.mp stepped
    obtain ⟨result, ends, rfl⟩ := Option.map_eq_some_iff.mp advanced
    refine ⟨outcome, result, ends, rfl, ?_⟩
    have running : node.proc.halted = false :=
      Process.running_of_step ends fun _ _ => Act.noConfusion
    have spec := applyCommands_settles index call.commands
      (node.proc.server.withOutcomes outcomes) (sentinel running)
    unfold wp at spec
    rw [ran] at spec
    have same : result.1.server = final := by
      simp only [Process.step, running, Process.stepApply, Process.execOrHalt,
        Process.exec, ran, Bool.false_eq_true, if_false,
        Option.some.injEq] at ends
      rw [← ends]
      split <;> rfl
    rw [same]
    exact spec
  · cases stepped

/-- The node after a section that commits nothing. -/
theorem CallingNode.Sound.settled
    {calls : List Call}
    {proc : Process}
    (sound : node.Sound)
    (started : proc.Started)
    (indexed : proc.halted = false → proc.server.view.Indexed)
    (commit :
      node.proc.server.raft.commitIndex ≤ proc.server.raft.commitIndex)
    (serves : proc.server.entryView.Serves (calls.map Call.batch))
    (kept :
      ∀ (sink : Nat) (call : Call), calls[sink]? = some call → call.Kept)
    (before :
      ∀ (sink : Nat) (call : Call),
        calls[sink]? = some call →
        (call.observe sink proc.server).signaled = true →
        ∃ old,
          node.calls[sink]? = some old ∧ old.signaled = true ∧
            old.batch = call.batch) :
    (after calls proc).Sound ∧ node.Traces (after calls proc) := by
  have committed :
      ∀ (sink : Nat) (call : Call),
        calls[sink]? = some call →
        (call.observe sink proc.server).signaled = true →
        ∃ first,
          call.first = some first ∧
            call.last first ≤ proc.server.raft.commitIndex := by
    intro sink call found set
    obtain ⟨old, held, signaled, same⟩ := before sink call found set
    obtain ⟨first, start, within⟩ := sound.committed sink old held signaled
    refine ⟨first, (Call.first_of_batch same).symm.trans start, ?_⟩
    rw [← Call.last_of_batch same]
    exact within.trans commit
  refine ⟨sound_after started indexed serves kept ?_ ?_, ?_⟩
  · intro sink call first found start set
    obtain ⟨first', start', within⟩ := committed sink call found
      (observe_signaled.mpr (set.imp_right fun set => ⟨first, start, set⟩))
    rw [start, Option.some.injEq] at start'
    exact start' ▸ within
  · intro sink call found set
    obtain ⟨first, start, -⟩ := committed sink call found
      (observe_signaled.mpr (Or.inl set))
    exact ⟨first, start⟩
  · intro sink call found set
    obtain ⟨call, held, rfl⟩ := after_call found
    obtain ⟨old, was, signaled, same⟩ := before sink call held set
    exact Or.inl ⟨old, was, signaled, same.trans observe_batch.symm⟩

theorem set_call
    {calls : List Call}
    {sink : Nat}
    {old new : Call}
    (held : calls[index]? = some old)
    (found : (calls.set index new)[sink]? = some call) :
    sink = index ∧ new = call ∨ sink ≠ index ∧ calls[sink]? = some call := by
  rw [List.getElem?_set] at found
  split at found
  · rename_i same
    rw [if_pos (List.getElem?_eq_some_iff.mp held).1] at found
    exact Or.inl ⟨same.symm, Option.some.inj found⟩
  · rename_i other
    exact Or.inr ⟨fun same => other same.symm, found⟩

theorem set_batches
    {calls : List Call}
    {old new : Call}
    (held : calls[index]? = some old)
    (same : new.batch = old.batch) :
    (calls.set index new).map Call.batch = calls.map Call.batch := by
  refine List.ext_getElem? fun sink => ?_
  rw [List.getElem?_map, List.getElem?_map, List.getElem?_set]
  split
  · rename_i here
    subst here
    rw [if_pos (List.getElem?_eq_some_iff.mp held).1, held, Option.map_some,
      Option.map_some, same]
  · rfl

theorem set_batch
    {calls : List Call}
    {old new : Call}
    (held : calls[index]? = some old) :
    ((calls.set index new).map Call.batch)[index]? = some new.batch := by
  rw [List.getElem?_map, List.getElem?_set_self
    (List.getElem?_eq_some_iff.mp held).1]
  rfl

theorem set_batch_other
    {calls : List Call}
    {new : Call}
    {sink : Nat}
    (other : sink ≠ index) :
    ((calls.set index new).map Call.batch)[sink]? =
      (calls.map Call.batch)[sink]? := by
  rw [List.getElem?_map, List.getElem?_map,
    List.getElem?_set_ne fun same => other same.symm]

/-- A call that has appended nothing has no results. -/
theorem CallingNode.Sound.noResults
    (sound : node.Sound)
    (held : node.calls[index]? = some call)
    (waits : call.first = none) :
    collected node.proc.server.results index = [] := by
  rcases sound.serves.results index with
    none | ⟨batch, first, inCalls, start, -⟩
  · exact none
  · rw [List.getElem?_map, held, Option.map_some, Option.some.injEq] at inCalls
    subst inCalls
    cases waits.symm.trans start

/-- A call that has appended nothing has no entry. -/
theorem CallingNode.Sound.noEntry
    {logIdx : Nat}
    {entry : Entry}
    (sound : node.Sound)
    (held : node.calls[index]? = some call)
    (waits : call.first = none)
    (found : node.proc.server.entryView.entryAt? logIdx = some entry) :
    entry.resultSink ≠ some index := by
  intro own
  obtain ⟨batch, first, inCalls, start, -⟩ :=
    sound.serves.owned logIdx entry index found own
  rw [List.getElem?_map, held, Option.map_some, Option.some.injEq] at inCalls
  subst inCalls
  cases waits.symm.trans start

/-- Lock A that appends nothing. -/
theorem CallingNode.Sound.refused
    {proc : Process}
    {new : Call}
    (sound : node.Sound)
    (started : proc.Started)
    (indexed : proc.halted = false → proc.server.view.Indexed)
    (held : node.calls[index]? = some call)
    (same : proc.server.entryView = node.proc.server.entryView)
    (batch : new.batch = call.batch)
    (signaled : new.signaled = call.signaled)
    (kept : new.Kept) :
    (after (node.calls.set index new) proc).Sound ∧
      node.Traces (after (node.calls.set index new) proc) := by
  have commit : proc.server.raft.commitIndex =
      node.proc.server.raft.commitIndex :=
    congrArg EntryView.commit same
  refine sound.settled started indexed commit.ge ?_ ?_ ?_
  · rw [set_batches held batch, same]
    exact sound.serves
  · intro sink other found
    rcases set_call held found with ⟨rfl, rfl⟩ | ⟨-, found⟩
    · exact kept
    · exact sound.kept sink other found
  · intro sink other found set
    obtain ⟨old, was, sameSignal, sameBatch⟩ :
        ∃ old,
          node.calls[sink]? = some old ∧ old.signaled = other.signaled ∧
            old.batch = other.batch := by
      rcases set_call held found with ⟨rfl, rfl⟩ | ⟨-, found⟩
      · exact ⟨call, held, signaled.symm, batch.symm⟩
      · exact ⟨other, found, rfl, rfl⟩
    refine ⟨old, was, ?_, sameBatch⟩
    rcases observe_signaled.mp set with set | ⟨first, start, set⟩
    · exact sameSignal.trans set
    · refine sound.observed sink old first was
        ((Call.first_of_batch sameBatch).trans start) ?_
      rw [Call.last_of_batch sameBatch, ← set, Server.signalSet,
        Server.signalSet, same]

/-- Lock A that appends the commands of the call. -/
theorem CallingNode.Sound.replicating
    {proc : Process}
    (sound : node.Sound)
    (running : node.proc.halted = false)
    (started : proc.Started)
    (indexed : proc.halted = false → proc.server.view.Indexed)
    (held : node.calls[index]? = some call)
    (waits : call.first = none)
    (nonempty : call.commands ≠ [])
    (pushed :
      proc.server.entryView = node.proc.server.entryView.push
        (clientEntries node.proc.server.entryView.term index call.commands)) :
    (after
        (node.calls.set index
          (call.settle node.proc.server.ring.tailLogIndex .replicating))
        proc).Sound ∧
      node.Traces (after
        (node.calls.set index
          (call.settle node.proc.server.ring.tailLogIndex .replicating))
        proc) := by
  have covered := (sound.indexed running).covered_entries.1
  have unsignaled : call.signaled = true → False := by
    intro set
    obtain ⟨first, start, -⟩ := sound.committed index call held set
    rw [waits] at start
    cases start
  have entries :
      ∀ logIdx entry sink,
        proc.server.entryView.entryAt? logIdx = some entry →
        entry.resultSink = some sink →
        node.proc.server.entryView.entryAt? logIdx = some entry ∧
            sink ≠ index ∨
          sink = index ∧ node.proc.server.ring.tailLogIndex ≤ logIdx ∧
            call.commands[logIdx - node.proc.server.ring.tailLogIndex]? =
                some entry.command ∧
              entry.ringSlot = 0 ∧ entry.committed = some false := by
    intro logIdx entry sink found own
    rw [pushed, covered.push_entry] at found
    split at found
    · refine Or.inl ⟨found, ?_⟩
      rintro rfl
      exact sound.noEntry held waits found own
    · rename_i behind
      rw [clientEntries, List.getElem?_map, Option.map_eq_some_iff] at found
      obtain ⟨command, added, rfl⟩ := found
      exact Or.inr ⟨(Option.some.inj own).symm, Nat.le_of_not_lt behind, added,
        rfl, rfl⟩
  have commit :
      proc.server.raft.commitIndex = node.proc.server.raft.commitIndex :=
    congrArg EntryView.commit pushed
  refine sound.settled started indexed commit.ge ⟨?_, ?_⟩ ?_ ?_
  · intro logIdx entry sink found own
    rcases entries logIdx entry sink found own with
      ⟨before, other⟩ | ⟨rfl, behind, command, slot, -⟩
    · rw [set_batch_other other]
      exact sound.serves.owned logIdx entry sink before own
    · exact ⟨_, _, set_batch held, rfl, behind, command, slot⟩
  · intro sink
    have results :
        proc.server.entryView.results =
          node.proc.server.entryView.results := by
      rw [pushed]
      rfl
    have applied :
        proc.server.entryView.applied =
          node.proc.server.entryView.applied := by
      rw [pushed]
      rfl
    rw [results, applied]
    by_cases same : sink = index
    · subst same
      exact Or.inl (sound.noResults held waits)
    · rw [set_batch_other same]
      exact sound.serves.results sink
  · intro sink other found
    rcases set_call held found with ⟨rfl, rfl⟩ | ⟨-, found⟩
    · exact ⟨trivial, fun _ _ => nonempty⟩
    · exact sound.kept sink other found
  · intro sink other found set
    rcases set_call held found with ⟨rfl, rfl⟩ | ⟨elsewhere, found⟩
    · exfalso
      rcases observe_signaled.mp set with set | ⟨first, start, set⟩
      · exact unsignaled set
      · obtain ⟨entry, inMemory, own, signal⟩ := signalSet_iff.mp set
        rcases entries _ entry _ inMemory own with
          ⟨-, other⟩ | ⟨-, -, -, -, waits⟩
        · exact other rfl
        · rw [waits] at signal
          cases signal
    · refine ⟨other, found, ?_, rfl⟩
      rcases observe_signaled.mp set with set | ⟨first, start, set⟩
      · exact set
      · obtain ⟨entry, inMemory, own, signal⟩ := signalSet_iff.mp set
        rcases entries _ entry _ inMemory own with ⟨before, -⟩ | ⟨same, -⟩
        · exact sound.observed sink other first found start
            (signalSet_iff.mpr ⟨entry, before, own, signal⟩)
        · exact absurd same elsewhere

/-- Lock A, however it ends. -/
theorem CallingNode.Sound.lockA
    (sound : node.Sound)
    (held : node.calls[index]? = some call)
    (waits : call.first = none)
    (stepped : node.stepLockA index call outcomes = some next) :
    next.Sound ∧ node.Traces next := by
  obtain ⟨outcome, result, ends, rfl, settled⟩ :=
    CallingNode.stepLockA_ends
      (fun running => (sound.indexed running).covered_entries.1.sentinel)
      stepped
  have noRestart :
      ∀ kernel cacheLost,
        Act.apply index call.commands ≠ .restart kernel cacheLost :=
    fun _ _ => Act.noConfusion
  have running := Process.running_of_step ends noRestart
  have started : result.1.Started :=
    @Process.Started.step _ _
      { outcomes, act := .apply index call.commands } sound.started
      (Option.map_eq_some_iff.mpr ⟨result, ends, rfl⟩)
  have indexed : result.1.halted = false → result.1.server.view.Indexed :=
    fun _ => (Process.step_does sound.started.wellformed ends).indexed
      (sound.indexed running) sound.started.reach rfl noRestart
  have nonempty := (sound.kept index call held).nonempty
  cases outcome with
  | replicating =>
      exact sound.replicating running started indexed held waits settled.1
        settled.2
  | emptyRequest =>
      exact sound.refused started indexed held settled.2 rfl rfl
        ⟨Or.inl settled.1, nonempty⟩
  | notLeader =>
      exact sound.refused started indexed held settled rfl rfl
        ⟨fun _ => waits, nonempty⟩
  | ringFull =>
      exact sound.refused started indexed held settled rfl rfl
        ⟨waits, nonempty⟩
  | persistFailed exn =>
      exact sound.refused started indexed held settled rfl rfl
        ⟨fun _ => waits, nonempty⟩

/-- A call goes on without the lock. -/
theorem CallingNode.Sound.setCall
    {new : Call}
    (sound : node.Sound)
    (held : node.calls[index]? = some call)
    (batch : new.batch = call.batch)
    (signaled : new.signaled = call.signaled)
    (consistent : new.Consistent) :
    (node.setCall index new).Sound ∧
      node.Traces (node.setCall index new) := by
  have kept : new.Kept := by
    refine ⟨consistent, fun first start => ?_⟩
    have commands : new.commands = call.commands :=
      congrArg Batch.commands batch
    rw [commands]
    exact (sound.kept index call held).nonempty first
      ((Call.first_of_batch batch).symm.trans start)
  have before :
      ∀ (sink : Nat) (other : Call),
        (node.setCall index new).calls[sink]? = some other →
        ∃ old,
          node.calls[sink]? = some old ∧ old.signaled = other.signaled ∧
            old.batch = other.batch := by
    intro sink other found
    rcases set_call held found with ⟨rfl, rfl⟩ | ⟨-, found⟩
    · exact ⟨call, held, signaled.symm, batch.symm⟩
    · exact ⟨other, found, rfl, rfl⟩
  refine ⟨⟨sound.started, sound.indexed, ?_, ?_, ?_, ?_⟩, ?_⟩
  · exact (set_batches held batch).symm ▸ sound.serves
  · intro sink other found
    rcases set_call held found with ⟨rfl, rfl⟩ | ⟨-, found⟩
    · exact kept
    · exact sound.kept sink other found
  · intro sink other first found start set
    obtain ⟨old, was, same, batch⟩ := before sink other found
    refine same.symm.trans (sound.observed sink old first was
      ((Call.first_of_batch batch).trans start) ?_)
    rw [Call.last_of_batch batch]
    exact set
  · intro sink other found set
    obtain ⟨old, was, same, batch⟩ := before sink other found
    obtain ⟨first, start, within⟩ :=
      sound.committed sink old was (same.trans set)
    refine ⟨first, (Call.first_of_batch batch).symm.trans start, ?_⟩
    rw [← Call.last_of_batch batch]
    exact within
  · intro sink other found set
    obtain ⟨old, was, same, batch⟩ := before sink other found
    exact Or.inl ⟨old, was, same.trans set, batch⟩

/-- A client makes a further call. -/
theorem CallingNode.Sound.enter
    {new : Call}
    (sound : node.Sound)
    (fresh : new.first = none)
    (unsignaled : new.signaled = false)
    (consistent : new.Consistent) :
    ({ node with calls := node.calls ++ [new] } : CallingNode).Sound ∧
      node.Traces { node with calls := node.calls ++ [new] } := by
  have appended :
      ∀ (sink : Nat) (call : Call),
        (node.calls ++ [new])[sink]? = some call →
        node.calls[sink]? = some call ∨ call = new := by
    intro sink call found
    rw [List.getElem?_append] at found
    split at found
    · exact Or.inl found
    · exact Or.inr (List.mem_singleton.mp (List.mem_of_getElem? found))
  have batches :
      ∀ (sink : Nat) (batch : Batch),
        (node.calls.map Call.batch)[sink]? = some batch →
        ((node.calls ++ [new]).map Call.batch)[sink]? = some batch := by
    intro sink batch found
    rw [List.map_append]
    exact List.getElem?_append_left
      (List.getElem?_eq_some_iff.mp found).1 ▸ found
  refine ⟨⟨sound.started, sound.indexed, ⟨?_, ?_⟩, ?_, ?_, ?_⟩, ?_⟩
  · intro logIdx entry sink found own
    obtain ⟨batch, first, inCalls, rest⟩ :=
      sound.serves.owned logIdx entry sink found own
    exact ⟨batch, first, batches sink batch inCalls, rest⟩
  · intro sink
    rcases sound.serves.results sink with
      none | ⟨batch, first, inCalls, rest⟩
    · exact Or.inl none
    · exact Or.inr ⟨batch, first, batches sink batch inCalls, rest⟩
  · intro sink call found
    rcases appended sink call found with old | rfl
    · exact sound.kept sink call old
    · refine ⟨consistent, fun first start => ?_⟩
      cases fresh.symm.trans start
  · intro sink call first found start set
    rcases appended sink call found with old | rfl
    · exact sound.observed sink call first old start set
    · cases fresh.symm.trans start
  · intro sink call found set
    rcases appended sink call found with old | rfl
    · exact sound.committed sink call old set
    · cases unsignaled.symm.trans set
  · intro sink call found set
    rcases appended sink call found with old | rfl
    · exact Or.inl ⟨call, old, set, rfl⟩
    · cases unsignaled.symm.trans set

/-- Append handlers find the tail as they have left it. -/
def CallingNode.tailKept
    (node : CallingNode) :
    CallMove → Bool
  | .node input => node.proc.node.tailUnmoved input.act
  | _ => true

/-- The log of a restarted node is indexed. -/
theorem Process.Does.restart_indexed
    {proc : Process}
    {kernel : KernelAnswers}
    {cacheLost : Bool}
    {result : Process × Outputs}
    (does : proc.Does (.restart kernel cacheLost) result)
    (running : result.1.halted = false) :
    result.1.server.view.Indexed := by
  have halted : result.1.node.halted = false := running
  show result.1.node.view.Indexed
  unfold Process.Does at does
  generalize result.1.node = after at does halted
  generalize result.2 = outputs at does
  cases does with
  | restarted =>
      exact ⟨Nat.one_pos, le_refl _, le_refl _⟩
  | restartThrew =>
      cases halted

/-- A process that has started again has neither entries nor results. -/
theorem CallingNode.Sound.restarted
    {input : Input}
    {proc : Process}
    (sound : node.Sound)
    (restarts : input.act.isRestart = true)
    (advanced : node.proc.advance input = some proc) :
    (after [] proc).Sound := by
  have started := sound.started.step advanced
  obtain ⟨result, stepped, rfl⟩ := Option.map_eq_some_iff.mp advanced
  cases act : input.act with
  | restart kernel cacheLost =>
      rw [act] at stepped
      have does := Process.step_does sound.started.wellformed stepped
      refine sound_after started does.restart_indexed ⟨?_, fun sink => ?_⟩
        ?_ ?_ ?_
      · intro logIdx entry sink found own
        rw [does.restart_empty] at found
        cases found
      · have none : result.1.server.entryView.results = [] := by
          rw [Process.step, Option.some.injEq] at stepped
          rw [← stepped]
          exact (startUp_applied _ _ _).2
        rw [none]
        exact Or.inl rfl
      · intro sink call found
        cases found
      · intro sink call first found
        cases found
      · intro sink call found
        cases found
  | _ =>
      rw [act] at restarts
      cases restarts

/-- A call goes on. -/
theorem CallingNode.Sound.goOn
    {move : CallMove}
    (sound : node.Sound)
    (stepped : node.goOn move = some next) :
    next.Sound ∧ node.Traces next := by
  unfold CallingNode.goOn at stepped
  split at stepped
  · rename_i index running target
    split at stepped
    · rename_i call held
      have consistent := (sound.kept index call held).consistent
      unfold Call.Consistent at consistent
      unfold stepCall at stepped
      split at stepped
      · rename_i pc
        rw [pc] at consistent
        exact sound.lockA held consistent stepped
      · rename_i pc
        rw [pc] at consistent
        exact sound.lockA held consistent stepped
      · rename_i pc
        rw [pc] at consistent
        obtain rfl := Option.some.inj stepped
        exact sound.setCall held rfl rfl fun _ => consistent
      · obtain rfl := Option.some.inj stepped
        refine sound.setCall held rfl rfl ?_
        unfold Call.Consistent
        dsimp only
        split_ifs with set
        · exact set
        · trivial
      · obtain rfl := Option.some.inj stepped
        refine sound.setCall held rfl rfl ?_
        unfold Call.Consistent
        dsimp only
        split_ifs
        · exact fun other => by cases other
        · exact fun other => by cases other
        · trivial
      · rename_i pc
        rw [pc] at consistent
        obtain rfl := Option.some.inj stepped
        exact sound.setCall held rfl rfl (Or.inr consistent)
      · cases stepped
    · cases stepped
  · cases stepped

/-- What one step keeps, and what it may commit. -/
theorem CallingNode.Sound.step
    {move : CallMove}
    (sound : node.Sound)
    (allowed : node.tailKept move = true)
    (stepped : node.step move = some next) :
    next.Sound ∧ node.Traces next := by
  cases move with
  | enter commands =>
      unfold CallingNode.step at stepped
      dsimp only at stepped
      split at stepped
      · cases stepped
      · obtain rfl := Option.some.inj stepped
        refine sound.enter rfl rfl ?_
        unfold Call.Consistent
        cases commands with
        | nil => exact Or.inl rfl
        | cons command rest => rfl
  | node input =>
      unfold CallingNode.step at stepped
      dsimp only at stepped
      split at stepped
      · cases stepped
      · rename_i noApply
        obtain ⟨proc, advanced, rfl⟩ := Option.map_eq_some_iff.mp stepped
        cases restarts : input.act.isRestart with
        | true =>
            refine ⟨sound.restarted restarts advanced, ?_⟩
            intro sink call found
            cases found
        | false =>
            obtain ⟨result, ends, rfl⟩ :=
              Option.map_eq_some_iff.mp advanced
            exact sound.sections (Bool.eq_false_iff.mpr noApply) restarts
              allowed ends
  | lockA _ _ => exact sound.goOn stepped
  | giveUp _ => exact sound.goOn stepped
  | lookAtSignal _ => exact sound.goOn stepped
  | lookAtRole _ _ => exact sound.goOn stepped
  | collect _ => exact sound.goOn stepped

end

section

variable {n : Nat} {members : Membership n} {settings : Fin n → Settings}
variable {member : Fin n} {moves : List CallMove} {final : CallingNode}

/-- A booted node without calls is sound. -/
theorem boot_sound
    (members : Membership n)
    (settings : Fin n → Settings)
    (member : Fin n) :
    ({ proc := members.boot settings member } : CallingNode).Sound := by
  obtain ⟨watched, empty⟩ := boot_watched members settings member
  refine ⟨boot_started members settings member, watched.indexed rfl,
    ⟨?_, fun sink => Or.inl ?_⟩, ?_, ?_, ?_⟩
  · intro logIdx entry sink found
    rw [empty] at found
    cases found
  · have none :
        (members.boot settings member).server.results = [] :=
      (startUp_applied _ _ _).2
    show collected (members.boot settings member).server.results sink = []
    rw [none]
    rfl
  · intro sink call found
    cases found
  · intro sink call first found
    cases found
  · intro sink call found
    cases found

/-- What the runs of a node with its client calls keep. -/
theorem calls_sound
    (ran :
      runWhile CallingNode.tailKept CallingNode.step
        { proc := members.boot settings member } moves = some final) :
    final.Sound :=
  runWhile_invariant CallingNode.Sound
    (fun _ _ _ sound allowed stepped => (sound.step allowed stepped).1)
    (boot_sound members settings member) ran

/-- A new process starts. -/
def CallMove.restarts : CallMove → Bool
  | .node input => input.act.isRestart
  | _ => false

/-- A restart ends all calls. -/
theorem restart_calls
    {node next : CallingNode}
    {move : CallMove}
    (restarts : move.restarts = true)
    (stepped : node.step move = some next) :
    next.calls = [] := by
  cases move with
  | node input =>
      have restarts' : input.act.isRestart = true := restarts
      rw [CallingNode.step, if_pos restarts'] at stepped
      split at stepped
      · cases stepped
      · obtain ⟨proc, -, rfl⟩ := Option.map_eq_some_iff.mp stepped
        rfl
  | _ => cases restarts

/-- The process has committed the last entry of a call in the run. -/
def CommittedIn
    (start : CallingNode)
    (moves : List CallMove)
    (sink : Nat)
    (commands : List (List UInt8))
    (last : Nat) : Prop :=
  ∃ earlier move later before after,
    moves = earlier ++ move :: later ∧
      (∀ other ∈ later, other.restarts = false) ∧
        runWhile CallingNode.tailKept CallingNode.step start earlier =
            some before ∧
          before.step move = some after ∧
            before.CommitsCall after sink commands last

/-- A call that has found its signal had its last entry committed. -/
theorem signaled_committed
    {start : CallingNode}
    (sound : start.Sound)
    (noCalls : start.calls = [])
    (moves : List CallMove) :
    ∀ {final : CallingNode},
      runWhile CallingNode.tailKept CallingNode.step start moves =
        some final →
      ∀ (sink : Nat) (call : Call),
        final.calls[sink]? = some call →
        call.signaled = true →
        ∃ first,
          call.first = some first ∧
            CommittedIn start moves sink call.commands (call.last first) := by
  induction moves using List.reverseRecOn with
  | nil =>
      intro final ran sink call found
      rw [runWhile, Option.some.injEq] at ran
      rw [← ran, noCalls] at found
      cases found
  | append_singleton moves move inductionHypothesis =>
      intro final ran sink call found set
      obtain ⟨middle, reached, allowed, stepped⟩ := runWhile_concat ran
      have before : middle.Sound :=
        runWhile_invariant CallingNode.Sound
          (fun _ _ _ sound allowed stepped =>
            (sound.step allowed stepped).1) sound reached
      rcases (before.step allowed stepped).2 sink call found set with
        ⟨old, held, already, same⟩ | ⟨first, start, commits⟩
      · obtain ⟨first, start, earlier, other, later, state, after, rfl,
          along, rest⟩ := inductionHypothesis reached sink old held already
        have commands : old.commands = call.commands :=
          congrArg Batch.commands same
        rw [commands, Call.last_of_batch same] at rest
        refine ⟨first, (Call.first_of_batch same).symm.trans start, earlier,
          other, later ++ [move], state, after, by simp, ?_, rest⟩
        intro another member
        rcases List.mem_append.mp member with inside | last
        · exact along another inside
        · rw [List.mem_singleton.mp last]
          refine Bool.eq_false_iff.mpr fun restarts => ?_
          rw [restart_calls restarts stepped] at found
          cases found
      · exact ⟨first, start, moves, move, [], middle, final, rfl,
          List.forall_mem_nil _, reached, stepped, commits⟩

/--
A leader takes two commands of one client and fails to write the command of
another; the first call returns once both of its commands are applied.
-/
def answeredCalls : List CallMove :=
  firstLead.map CallMove.node ++
    [.enter [[1], [2]], .lockA 0 {}, .node { act := .applySpawn 0 },
     .enter [[3]], .lockA 1 { writes := [.fails 0] },
     .node { act := .appendSend 0 },
     .node { act := .appendReply 0 { term := 1, success := true } },
     .node { act := mainAct false }, .node { act := mainAct false },
     .node { act := mainAct false }, .node { act := .applyPending },
     .lookAtSignal 0, .collect 0]

def succeededCall : Call where
  commands := [[1], [2]]
  pc := .returned none
  first := some 2
  signaled := true

def failedCall : Call where
  commands := [[3]]
  pc := .returned (some (.persistFailed .writeAtFile))

theorem answeredCalls_end :
    ∃ final,
      runWhile CallingNode.tailKept CallingNode.step { proc := firstNode }
          answeredCalls = some final ∧
        final.calls = [succeededCall, failedCall] ∧
          final.proc.server.results = [(0, [1]), (0, [2])] := by
  obtain ⟨final, run, passes⟩ :
      ∃ final,
        runWhile CallingNode.tailKept CallingNode.step { proc := firstNode }
            answeredCalls = some final ∧
          decide (final.calls = [succeededCall, failedCall] ∧
            final.proc.server.results = [(0, [1]), (0, [2])]) = true :=
    runWhile_exists (by decide +kernel)
  exact ⟨final, run, of_decide_eq_true passes⟩

/--
A client call that has returned without an error has had its last entry
committed by the leader, in a section in which a majority of the cluster had
reached it; no later election of the process takes that back.
-/
theorem success_means_committed
    (ran :
      runWhile CallingNode.tailKept CallingNode.step
        { proc := members.boot settings member } moves = some final)
    {sink : Nat}
    {call : Call}
    (found : final.calls[sink]? = some call)
    (returned : call.pc = .returned none)
    (nonempty : call.commands ≠ []) :
    ∃ first,
      call.first = some first ∧
        call.last first ≤ final.proc.server.raft.commitIndex ∧
          CommittedIn { proc := members.boot settings member } moves sink
            call.commands (call.last first) := by
  have sound := calls_sound ran
  have consistent := (sound.kept sink call found).consistent
  rw [Call.Consistent, returned] at consistent
  have signaled : call.signaled = true :=
    consistent.resolve_left nonempty
  obtain ⟨first, start, committed⟩ :=
    signaled_committed (boot_sound members settings member) rfl moves ran sink
      call found signaled
  obtain ⟨first', start', within⟩ := sound.committed sink call found signaled
  rw [start, Option.some.injEq] at start'
  subst start'
  exact ⟨first, start, within, committed⟩

theorem first_call_committed :
    ∃ final : CallingNode,
      3 ≤ final.proc.server.raft.commitIndex ∧
        CommittedIn { proc := firstNode } answeredCalls 0 [[1], [2]] 3 := by
  obtain ⟨final, ran, calls, -⟩ := answeredCalls_end
  have found : final.calls[0]? = some succeededCall := by
    rw [calls]
    rfl
  obtain ⟨first, start, within, committed⟩ :=
    success_means_committed ran found rfl (List.cons_ne_nil _ _)
  obtain rfl : first = 2 := (Option.some.inj start).symm
  exact ⟨final, within, committed⟩

/--
A client call that has failed before its commands were durable has no entry in
the log and gets no result, then and later.
-/
theorem refused_calls_leave_nothing
    (ran :
      runWhile CallingNode.tailKept CallingNode.step
        { proc := members.boot settings member } moves = some final)
    {sink : Nat}
    {call : Call}
    {error : ApplyError}
    (found : final.calls[sink]? = some call)
    (returned : call.pc = .returned (some error))
    (refuses : error.refuses = true) :
    (∀ logIdx entry,
        final.proc.server.entryView.entryAt? logIdx = some entry →
        entry.resultSink ≠ some sink) ∧
      collected final.proc.server.results sink = [] := by
  have sound := calls_sound ran
  have consistent := (sound.kept sink call found).consistent
  rw [Call.Consistent, returned] at consistent
  have none := consistent refuses
  exact ⟨fun _ _ inMemory => sound.noEntry found none inMemory,
    sound.noResults found none⟩

theorem second_call_leaves_nothing :
    ∃ final : CallingNode,
      (∀ logIdx entry,
          final.proc.server.entryView.entryAt? logIdx = some entry →
          entry.resultSink ≠ some 1) ∧
        collected final.proc.server.results 1 = [] := by
  obtain ⟨final, ran, calls, -⟩ := answeredCalls_end
  have found : final.calls[1]? = some failedCall := by
    rw [calls]
    rfl
  exact ⟨final, refused_calls_leave_nothing ran found rfl rfl⟩

/--
The results that a client call has got are those of its commands in their
order, each at most once, however often the process has been elected.
-/
theorem results_in_order
    (ran :
      runWhile CallingNode.tailKept CallingNode.step
        { proc := members.boot settings member } moves = some final)
    {sink : Nat}
    {call : Call}
    (found : final.calls[sink]? = some call) :
    (collected final.proc.server.results sink).Sublist
      (nonEmptyCommands call.commands) := by
  have sound := calls_sound ran
  rcases sound.serves.results sink with
    none | ⟨batch, first, inCalls, -, within⟩
  · have none' : collected final.proc.server.results sink = [] := none
    rw [none']
    exact List.nil_sublist _
  · rw [List.getElem?_map, found, Option.map_some,
      Option.some.injEq] at inCalls
    subst inCalls
    exact within.trans ((List.take_sublist _ _).filter _)

theorem first_call_results :
    ∃ final : CallingNode,
      collected final.proc.server.results 0 = [[1], [2]] ∧
        (collected final.proc.server.results 0).Sublist
          (nonEmptyCommands [[1], [2]]) := by
  obtain ⟨final, ran, calls, results⟩ := answeredCalls_end
  have found : final.calls[0]? = some succeededCall := by
    rw [calls]
    rfl
  refine ⟨final, ?_, results_in_order ran found⟩
  rw [results]
  rfl

end

end NvmeofRaft
