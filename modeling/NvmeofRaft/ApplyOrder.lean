import NvmeofRaft.Authenticity
import NvmeofRaft.EntryIndex
import NvmeofRaft.Progress

namespace NvmeofRaft

/-!
# Exactly-once, in-order apply

Over one leadership the entries from `last_applied` on are a queue: client
requests join it at the end, `apply_pending` takes entries from its front, and
neither commitment nor trimming nor a rolled-back append touches it.
-/

/-- What `apply_pending` passes on of an entry. -/
structure Job where
  command : List UInt8
  sink : Option Nat
  deriving Repr, DecidableEq

/-- The job of an entry. -/
def Entry.job (entry : Entry) : Job where
  command := entry.command
  sink := entry.resultSink

/-- The commands that reach the state machine: empty ones are skipped. -/
def commandsOf (jobs : List Job) : List (List UInt8) :=
  (jobs.map Job.command).filter fun command => !command.isEmpty

/-- The sink of a job with the command whose result it gets. -/
def Job.result? (job : Job) : Option (Nat × List UInt8) :=
  if job.command.isEmpty then
    none
  else
    job.sink.map fun sink => (sink, job.command)

/-- The calls of result sinks. -/
def resultsOf (jobs : List Job) : List (Nat × List UInt8) :=
  jobs.filterMap Job.result?

theorem commandsOf_append
    (first second : List Job) :
    commandsOf (first ++ second) = commandsOf first ++ commandsOf second := by
  simp [commandsOf]

theorem resultsOf_append
    (first second : List Job) :
    resultsOf (first ++ second) = resultsOf first ++ resultsOf second := by
  simp [resultsOf]

namespace EntryView

/-- The jobs of the log from `last_applied` on. -/
def waiting (view : EntryView) : List Job :=
  (view.log.drop (sub64 (view.applied + 1) view.oldest)).map Entry.job

/-- A leader whose log covers `last_applied`. -/
structure Ordered (view : EntryView) : Prop extends view.Covered where
  leader : view.role = .leader
  inMemory : view.oldest ≤ view.applied
  limit : view.applied ≤ view.commit + 1

/-- The jobs passed on between two views, with what they left behind. -/
structure Passes
    (before : EntryView)
    (jobs : List Job)
    (after : EntryView) : Prop where
  applied : after.applied = before.applied + jobs.length
  waiting : before.waiting <+: jobs ++ after.waiting
  commands : after.commands = before.commands ++ commandsOf jobs
  results : after.results = before.results ++ resultsOf jobs

/-- Passing jobs on, and then others, is passing on both in turn. -/
theorem Passes.trans
    {first second third : EntryView}
    {earlier later : List Job}
    (start : first.Passes earlier second)
    (rest : second.Passes later third) :
    first.Passes (earlier ++ later) third where
  applied := by
    rw [rest.applied, start.applied, List.length_append, Nat.add_assoc]
  waiting := by
    rw [List.append_assoc]
    exact start.waiting.trans
      ((List.prefix_append_right_inj earlier).mpr rest.waiting)
  commands := by
    rw [rest.commands, start.commands, commandsOf_append, List.append_assoc]
  results := by
    rw [rest.results, start.results, resultsOf_append, List.append_assoc]

/-- A change that passes nothing on and keeps the queue up to new entries. -/
theorem passes_nil
    {before after : EntryView}
    (applied : after.applied = before.applied)
    (waiting : before.waiting <+: after.waiting)
    (commands : after.commands = before.commands)
    (results : after.results = before.results) :
    before.Passes [] after where
  applied := applied
  waiting := waiting
  commands := by
    rw [commands]
    exact (List.append_nil _).symm
  results := by
    rw [results]
    exact (List.append_nil _).symm

/-- The waiting jobs are those of the log behind the applied ones. -/
theorem Ordered.waiting_eq
    {view : EntryView}
    (ordered : view.Ordered) :
    view.waiting =
      (view.log.drop (view.applied + 1 - view.oldest)).map Entry.job := by
  rw [EntryView.waiting,
    sub64_of_le (Nat.le_succ_of_le ordered.inMemory)]

end EntryView

namespace EntryView

/-- Views that differ in the commit index and the signals of entries only. -/
structure SameJobs (before after : EntryView) : Prop where
  jobs : after.log.map Entry.job = before.log.map Entry.job
  tail : after.tail = before.tail
  applied : after.applied = before.applied
  role : after.role = before.role
  commands : after.commands = before.commands
  results : after.results = before.results

theorem SameJobs.length
    {before after : EntryView}
    (same : before.SameJobs after) :
    after.log.length = before.log.length := by
  simpa using congrArg List.length same.jobs

theorem SameJobs.oldest
    {before after : EntryView}
    (same : before.SameJobs after) :
    after.oldest = before.oldest := by
  rw [EntryView.oldest, same.tail, same.length]
  rfl

/-- The same jobs stay in order when the commit index is raised. -/
theorem SameJobs.ordered
    {before after : EntryView}
    (same : before.SameJobs after)
    (ordered : before.Ordered)
    (raised : before.commit ≤ after.commit) :
    after.Ordered where
  sentinel := same.length.symm ▸ ordered.sentinel
  covered := by
    rw [same.length, same.tail]
    exact ordered.covered
  leader := same.role.trans ordered.leader
  inMemory := by
    rw [same.oldest, same.applied]
    exact ordered.inMemory
  limit := by
    rw [same.applied]
    exact ordered.limit.trans (Nat.succ_le_succ raised)

theorem SameJobs.passes
    {before after : EntryView}
    (same : before.SameJobs after) :
    before.Passes [] after := by
  refine passes_nil same.applied ?_ same.commands same.results
  simp only [EntryView.waiting, same.oldest, same.applied, List.map_drop,
    same.jobs, List.prefix_refl]

/-- New entries join the queue at its end. -/
theorem push_passes
    {view : EntryView}
    (ordered : view.Ordered)
    (entries : List Entry) :
    view.Passes [] (view.push entries) ∧ (view.push entries).Ordered := by
  have oldest := ordered.push_oldest entries
  refine ⟨passes_nil rfl ?_ rfl rfl, ?_⟩
  · rw [EntryView.waiting, EntryView.waiting, oldest]
    simp only [EntryView.push, List.drop_append, List.map_append]
    exact List.prefix_append _ _
  · exact {
      toCovered := ordered.push entries
      leader := ordered.leader
      inMemory := oldest.symm ▸ ordered.inMemory
      limit := ordered.limit }

/-- Trimming below `last_applied` leaves the queue as it is. -/
theorem trim_passes
    {view : EntryView}
    {removed : Nat}
    (ordered : view.Ordered)
    (fits : removed ≤ view.log.length - 1)
    (below : view.oldest + removed ≤ view.applied) :
    view.Passes [] (view.trim removed) ∧ (view.trim removed).Ordered := by
  have oldest := ordered.trim_oldest fits
  have trimmed : (view.trim removed).Ordered := {
    toCovered := ordered.trim fits
    leader := ordered.leader
    inMemory := oldest.symm ▸ below
    limit := ordered.limit }
  refine ⟨passes_nil rfl ?_ rfl rfl, trimmed⟩
  have sameLog := ordered.trim_drop removed
    (Nat.sub_pos_of_lt (Nat.lt_succ_of_le below))
  have position :
      view.applied + 1 - (view.oldest + removed) + removed =
        view.applied + 1 - view.oldest := by
    omega
  rw [position] at sameLog
  rw [ordered.waiting_eq, trimmed.waiting_eq, oldest, ← sameLog]
  exact List.prefix_refl _

end EntryView

theorem signalCommittedFrom_jobs :
    ∀ count logIdx (server : Server),
      server.entryView.SameJobs
          (signalCommittedFrom count logIdx server).entryView ∧
        (signalCommittedFrom count logIdx server).entryView.commit =
          server.entryView.commit := by
  intro count
  induction count with
  | zero =>
      intro logIdx server
      exact ⟨⟨rfl, rfl, rfl, rfl, rfl, rfl⟩, rfl⟩
  | succ count inductionHypothesis =>
      intro logIdx server
      rw [signalCommittedFrom]
      split
      · obtain ⟨same, commit⟩ := inductionHypothesis (logIdx + 1)
          (server.mapRaft fun raft =>
            { raft with
              log := raft.log.modify (server.logSlice logIdx)
                Entry.signalCommitted })
        refine ⟨⟨same.jobs.trans ?_, same.tail, same.applied, same.role,
          same.commands, same.results⟩, commit⟩
        exact map_modify_same _ _ fun _ => rfl
      · exact inductionHypothesis (logIdx + 1) server

/-- Commitment passes nothing on. -/
theorem commitTo_passes
    {server : Server}
    {majorityIdx : Nat}
    (ordered : server.entryView.Ordered)
    (above : server.raft.commitIndex < majorityIdx) :
    server.entryView.Passes [] (server.commitTo majorityIdx).entryView ∧
      (server.commitTo majorityIdx).entryView.Ordered := by
  obtain ⟨signalled, commit⟩ := signalCommittedFrom_jobs
    (majorityIdx - server.raft.commitIndex) (server.raft.commitIndex + 1)
    (server.mapRaft fun raft => { raft with commitIndex := majorityIdx })
  have same :
      server.entryView.SameJobs
        (server.commitTo majorityIdx).entryView :=
    ⟨signalled.jobs, signalled.tail, signalled.applied, signalled.role,
      signalled.commands, signalled.results⟩
  refine ⟨same.passes, same.ordered ordered ?_⟩
  have raised :
      (server.commitTo majorityIdx).entryView.commit = majorityIdx :=
    commit
  rw [raised]
  exact Nat.le_of_lt above

/-- Applying an entry passes its command on. -/
theorem applyEntry_commands
    (server : Server) :
    server.applyEntry.statemachine =
      server.statemachine ++
        commandsOf [(server.logAt server.raft.lastApplied).job] := by
  cases empty : (server.logAt server.raft.lastApplied).command.isEmpty with
  | true =>
      simp [Server.applyEntry, commandsOf, Entry.job, empty]
  | false =>
      simp [Server.applyEntry, commandsOf, Entry.job, empty]

theorem applyEntry_results
    (server : Server) :
    server.applyEntry.results =
      server.results ++
        resultsOf [(server.logAt server.raft.lastApplied).job] := by
  cases empty : (server.logAt server.raft.lastApplied).command.isEmpty with
  | true =>
      simp [Server.applyEntry, resultsOf, Job.result?, Entry.job, empty]
  | false =>
      cases sink : (server.logAt server.raft.lastApplied).resultSink with
      | none =>
          simp [Server.applyEntry, resultsOf, Job.result?, Entry.job, empty,
            sink]
      | some collector =>
          simp [Server.applyEntry, resultsOf, Job.result?, Entry.job, empty,
            sink]

/-- One iteration passes the front of the queue on. -/
theorem applyEntry_passes
    {server : Server}
    (ordered : server.entryView.Ordered)
    (allowed : server.canApply server.oldestLogIndex = true) :
    server.entryView.Passes
        [(server.logAt server.raft.lastApplied).job]
        server.applyEntry.entryView ∧
      server.applyEntry.entryView.Ordered := by
  simp only [Server.canApply, Bool.and_eq_true, decide_eq_true_eq] at allowed
  obtain ⟨⟨inMemory, below⟩, committed⟩ := allowed
  have oldest : server.oldestLogIndex = server.entryView.oldest := rfl
  have slice :
      server.logSlice server.raft.lastApplied =
        server.raft.lastApplied + 1 - server.oldestLogIndex :=
    sub64_of_le (Nat.le_succ_of_le inMemory)
  have inLog :
      server.logSlice server.raft.lastApplied < server.raft.log.length := by
    rw [slice]
    exact ordered.position_lt inMemory below
  have log := applyEntry_log inMemory
  have sameOldest :
      server.applyEntry.entryView.oldest = server.entryView.oldest := by
    rw [EntryView.oldest, show server.applyEntry.entryView.log = _ from log]
    exact EntryView.change_oldest server.entryView _ _
  have after : server.applyEntry.entryView.Ordered := {
    toCovered := by
      obtain ⟨sentinel, covered⟩ := ordered.toCovered.change
        server.raft.lastApplied Entry.release
      rw [← log] at sentinel covered
      exact ⟨sentinel, covered⟩
    leader := ordered.leader
    inMemory := sameOldest.symm ▸ Nat.le_succ_of_le inMemory
    limit := Nat.succ_le_succ committed }
  have front :
      server.raft.log.drop (server.logSlice server.raft.lastApplied) =
        server.logAt server.raft.lastApplied ::
          server.raft.log.drop
            (server.logSlice server.raft.lastApplied + 1) := by
    rw [List.drop_eq_getElem_cons inLog, Server.logAt,
      List.getD_eq_getElem?_getD, List.getElem?_eq_getElem inLog,
      Option.getD_some]
  have rest :
      server.applyEntry.entryView.waiting =
        (server.raft.log.drop
          (server.logSlice server.raft.lastApplied + 1)).map Entry.job := by
    rw [after.waiting_eq, sameOldest]
    show ((server.raft.log.modify _ _).drop
      (server.raft.lastApplied + 1 + 1 - server.oldestLogIndex)).map _ = _
    have next :
        server.raft.lastApplied + 1 + 1 - server.oldestLogIndex =
          server.logSlice server.raft.lastApplied + 1 := by
      rw [slice]
      omega
    rw [next, List.drop_modify_of_lt _ _ _ _ (Nat.lt_succ_self _)]
  refine ⟨⟨rfl, ?_, ?_, ?_⟩, after⟩
  · have queue : server.entryView.waiting =
        [(server.logAt server.raft.lastApplied).job] ++
          server.applyEntry.entryView.waiting := by
      rw [rest]
      show (server.raft.log.drop
        (server.logSlice server.raft.lastApplied)).map _ = _
      rw [front]
      rfl
    rw [queue]
  · exact applyEntry_commands server
  · exact applyEntry_results server

/-- The loop passes the waiting jobs on, in their order. -/
theorem applyPendingLoop_passes :
    ∀ bound (server : Server),
      server.entryView.Ordered →
      ∃ jobs,
        server.entryView.Passes jobs
            (applyPendingLoop server.oldestLogIndex bound
              server).entryView ∧
          (applyPendingLoop server.oldestLogIndex bound
            server).entryView.Ordered := by
  intro bound
  induction bound with
  | zero =>
      intro server ordered
      exact ⟨[], EntryView.passes_nil rfl (List.prefix_refl _) rfl rfl,
        ordered⟩
  | succ bound inductionHypothesis =>
      intro server ordered
      unfold applyPendingLoop
      split
      · rename_i allowed
        obtain ⟨first, middle⟩ := applyEntry_passes ordered allowed
        have sameOldest :
            server.applyEntry.oldestLogIndex = server.oldestLogIndex := by
          show sub64 _ ((server.raft.log.modify _ _).length - 1) = _
          rw [List.length_modify]
          rfl
        obtain ⟨jobs, rest, final⟩ :=
          inductionHypothesis server.applyEntry middle
        rw [sameOldest] at rest final
        exact ⟨_, first.trans rest, final⟩
      · exact ⟨[], EntryView.passes_nil rfl (List.prefix_refl _) rfl rfl,
          ordered⟩

/-- `apply_pending` passes on a front of the queue. -/
theorem applyCommitted_passes
    {server : Server}
    (ordered : server.entryView.Ordered) :
    ∃ jobs,
      server.entryView.Passes jobs server.applyCommitted.entryView ∧
        server.applyCommitted.entryView.Ordered := by
  have leader : server.raft.state = .leader := ordered.leader
  rw [Server.applyCommitted, if_pos leader]
  exact applyPendingLoop_passes _ server ordered

/-- Garbage collection leaves the queue as it is. -/
theorem collectGarbage_passes
    {server : Server}
    (ordered : server.entryView.Ordered) :
    server.entryView.Passes [] server.collectGarbage.entryView ∧
      server.collectGarbage.entryView.Ordered := by
  rcases collectGarbage_entryView server with
    same | ⟨removed, fits, below, trimmed⟩
  · rw [same]
    exact ⟨EntryView.passes_nil rfl (List.prefix_refl _) rfl rfl, ordered⟩
  · rw [trimmed]
    exact EntryView.trim_passes ordered fits below

/--
The step belongs to the leadership under way: the process goes on, no message
brings a higher term, and no append handler from before the election finishes.
-/
def oneLeadership
    (proc : Process)
    (input : Input) :
    Bool :=
  match input.act with
  | .restart _ _ => false
  | .handleAppendFinish _ _ => false
  | .handleAppend _ req => decide (req.term ≤ proc.server.raft.currentTerm)
  | .handleVote _ req => decide (req.term ≤ proc.server.raft.currentTerm)
  | .voteReply _ rsp => decide (rsp.term ≤ proc.server.raft.currentTerm)
  | _ => true

theorem EntryView.bump_of_le
    {view : EntryView}
    {term : Nat}
    (low : term ≤ view.term) :
    view.bump term = view := by
  rw [EntryView.bump, if_neg (Nat.not_lt.mpr low)]

/-- A leader turns an append request of a term that is not higher down. -/
theorem EntryView.Handled.refused
    {view after : EntryView}
    {req : AppendEntriesRequest}
    (handled : view.Handled req after)
    (leader : view.role = .leader)
    (low : req.term ≤ view.term) :
    after = view := by
  have met : view.meet req.term = view := by
    rw [EntryView.meet, EntryView.bump_of_le low, EntryView.stepDown,
      if_neg fun candidate => by simp [leader] at candidate]
  cases handled with
  | demoted higher =>
      exact absurd higher (Nat.not_lt.mpr low)
  | met =>
      exact met
  | followed follower =>
      rw [met, leader] at follower
      cases follower
  | completed follower _ _ _ _ _ =>
      rw [met, leader] at follower
      cases follower

/-- A step of a leadership passes on a front of the queue. -/
theorem Process.EntryStep.passes
    {proc : Process}
    {server : Server}
    {input : Input}
    {after : EntryView}
    (step : proc.EntryStep server input.act after)
    (same : server.entryView = proc.server.entryView)
    (ordered : server.entryView.Ordered)
    (leads : proc.main.leads = true)
    (inside : oneLeadership proc input = true) :
    ∃ jobs, server.entryView.Passes jobs after ∧ after.Ordered := by
  have still :
      ∃ jobs,
        server.entryView.Passes jobs server.entryView ∧
          server.entryView.Ordered :=
    ⟨[], EntryView.passes_nil rfl (List.prefix_refl _) rfl rfl, ordered⟩
  have sameTerm : proc.server.raft.currentTerm = server.entryView.term := by
    rw [same]
    rfl
  unfold oneLeadership at inside
  generalize input.act = act at step inside
  cases step with
  | kept =>
      exact still
  | bumped message =>
      cases act with
      | voteReply index rsp =>
          cases message
          rw [EntryView.bump_of_le (sameTerm ▸ of_decide_eq_true inside)]
          exact still
      | handleVote src req =>
          cases message
          rw [EntryView.bump_of_le (sameTerm ▸ of_decide_eq_true inside)]
          exact still
      | _ =>
          cases message
  | handled handled =>
      rw [handled.refused ordered.leader
        (sameTerm ▸ of_decide_eq_true inside)]
      exact still
  | finished _ =>
      cases inside
  | campaigned pc =>
      rw [pc] at leads
      cases leads
  | promoted pc _ =>
      rw [pc] at leads
      cases leads
  | committed _ _ above _ =>
      exact ⟨[], commitTo_passes ordered above⟩
  | appended _ =>
      exact ⟨[], EntryView.push_passes ordered _⟩
  | applied =>
      exact applyCommitted_passes ordered
  | collected =>
      exact ⟨[], collectGarbage_passes ordered⟩

/-- A leader in the middle of its leadership. -/
structure Process.Leading (proc : Process) : Prop where
  wellformed : proc.Wellformed
  leads : proc.main.leads = true
  ordered : proc.server.entryView.Ordered

/-- Every step of a leadership passes jobs on in their order. -/
theorem Process.Leading.step
    {proc next : Process}
    {input : Input}
    (leading : proc.Leading)
    (inside : oneLeadership proc input = true)
    (advanced : proc.advance input = some next) :
    next.Leading ∧
      ∃ jobs, proc.server.entryView.Passes jobs next.server.entryView := by
  obtain ⟨result, stepped, rfl⟩ := Option.map_eq_some_iff.mp advanced
  have noRestart :
      ∀ kernel cacheLost, input.act ≠ .restart kernel cacheLost := by
    intro kernel cacheLost restarts
    rw [oneLeadership, restarts] at inside
    cases inside
  have entries := Process.step_entries leading.ordered.sentinel stepped
    noRestart
  obtain ⟨jobs, passes, ordered⟩ :=
    entries.passes rfl leading.ordered leading.leads inside
  have does := Process.step_does leading.wellformed stepped
  refine ⟨⟨Process.step_wellformed leading.wellformed stepped, ?_, ordered⟩,
    jobs, passes⟩
  exact Node.Step.main_leads does leading.leads ordered.leader

/--
What a server has applied since `start`, whose first job is the one at the
`last_applied` of `start`.
-/
structure Server.HasApplied
    (start : Server)
    (jobs : List Job)
    (server : Server) : Prop where
  forward : start.raft.lastApplied ≤ server.raft.lastApplied
  counted : server.raft.lastApplied ≤ start.raft.lastApplied + jobs.length
  /-- The log from `last_applied` on goes on with the jobs. -/
  waiting :
    server.entryView.waiting <+:
      jobs.drop (server.raft.lastApplied - start.raft.lastApplied)
  commands :
    server.statemachine =
      start.statemachine ++
        commandsOf
          (jobs.take (server.raft.lastApplied - start.raft.lastApplied))
  results :
    server.results =
      start.results ++
        resultsOf
          (jobs.take (server.raft.lastApplied - start.raft.lastApplied))
  inMemory : server.oldestLogIndex ≤ server.raft.lastApplied
  limit : server.raft.lastApplied ≤ server.raft.commitIndex + 1

/-- What a later server has applied, seen from an earlier one. -/
theorem Server.HasApplied.of_passes
    {start next server : Server}
    {first jobs : List Job}
    (passes : start.entryView.Passes first next.entryView)
    (applied : next.HasApplied jobs server) :
    start.HasApplied (first ++ jobs) server := by
  have moved :
      next.raft.lastApplied = start.raft.lastApplied + first.length :=
    passes.applied
  have forward := applied.forward
  have counted := applied.counted
  have count :
      server.raft.lastApplied - start.raft.lastApplied =
        first.length +
          (server.raft.lastApplied - next.raft.lastApplied) := by
    omega
  refine {
    forward := by omega
    counted := by
      rw [List.length_append]
      omega
    waiting := ?_
    commands := ?_
    results := ?_
    inMemory := applied.inMemory
    limit := applied.limit }
  · rw [count, List.drop_length_add_append]
    exact applied.waiting
  · have commands : next.statemachine =
        start.statemachine ++ commandsOf first :=
      passes.commands
    rw [count, List.take_length_add_append, commandsOf_append,
      ← List.append_assoc, ← commands]
    exact applied.commands
  · have results : next.results = start.results ++ resultsOf first :=
      passes.results
    rw [count, List.take_length_add_append, resultsOf_append,
      ← List.append_assoc, ← results]
    exact applied.results

/-- One list of jobs explains every state of a run. -/
theorem Process.Leading.applies
    (inputs : List Input) :
    ∀ {proc final : Process},
      proc.Leading →
      runWhile oneLeadership Process.advance proc inputs = some final →
      ∃ jobs,
        proc.server.entryView.waiting <+: jobs ∧
          ∀ earlier later middle,
            inputs = earlier ++ later →
            runWhile oneLeadership Process.advance proc earlier =
              some middle →
            proc.server.HasApplied jobs middle.server := by
  have atStart :
      ∀ {proc : Process} {jobs : List Job},
        proc.Leading →
        proc.server.entryView.waiting <+: jobs →
        proc.server.HasApplied jobs proc.server := by
    intro proc jobs leading held
    exact {
      forward := le_refl _
      counted := Nat.le_add_right _ _
      waiting := by simpa using held
      commands := by simp [commandsOf]
      results := by simp [resultsOf]
      inMemory := leading.ordered.inMemory
      limit := leading.ordered.limit }
  induction inputs with
  | nil =>
      intro proc final leading run
      refine ⟨_, List.prefix_refl _, ?_⟩
      intro earlier later middle split onward
      have none : earlier = [] := (List.nil_eq_append_iff.mp split).1
      rw [none, runWhile, Option.some.injEq] at onward
      rw [← onward]
      exact atStart leading (List.prefix_refl _)
  | cons input inputs inductionHypothesis =>
      intro proc final leading run
      obtain ⟨next, inside, advanced, rest⟩ := runWhile_cons run
      obtain ⟨leads, first, passes⟩ := leading.step inside advanced
      obtain ⟨jobs, held, explained⟩ := inductionHypothesis leads rest
      have whole : proc.server.entryView.waiting <+: first ++ jobs :=
        passes.waiting.trans ((List.prefix_append_right_inj first).mpr held)
      refine ⟨first ++ jobs, whole, ?_⟩
      intro earlier later middle split onward
      cases earlier with
      | nil =>
          rw [runWhile, Option.some.injEq] at onward
          rw [← onward]
          exact atStart leading whole
      | cons head earlier =>
          rw [List.cons_append, List.cons.injEq] at split
          obtain ⟨rfl, split⟩ := split
          obtain ⟨other, -, reached, onward⟩ := runWhile_cons onward
          rw [advanced, Option.some.injEq] at reached
          rw [← reached] at onward
          exact (explained earlier later middle split onward).of_passes passes

/-- A winner whose indices are in order begins a leadership. -/
theorem Process.Leading.of_election
    {candidate leader : Process}
    {election : Input}
    (wellformed : candidate.Wellformed)
    (wins : candidate.node.wins election.act = true)
    (elected : candidate.advance election = some leader)
    (running : leader.halted = false)
    (small :
      leader.server.raft.lastApplied + leader.server.raft.log.length ≤
        2 ^ 64)
    (inMemory :
      leader.server.oldestLogIndex ≤ leader.server.raft.lastApplied)
    (limit :
      leader.server.raft.lastApplied ≤
        leader.server.raft.commitIndex + 1) :
    leader.Leading := by
  obtain ⟨result, stepped, rfl⟩ := Option.map_eq_some_iff.mp elected
  have does := Process.step_does wellformed stepped
  obtain ⟨main, applied, viewed⟩ := Node.Step.elected does wins running
  have role : result.1.server.raft.state = .leader :=
    congrArg View.role viewed
  have sentinel : 0 < result.1.server.raft.log.length := by
    have logged := congrArg (fun view => view.log.length) viewed
    simp only [Process.node, Server.view, List.length_map] at logged
    rw [logged]
    simp [View.promoted, View.resetProgress, View.push]
  refine ⟨Process.step_wellformed wellformed stepped, ?_, ?_⟩
  · have pc : result.1.main = .top := main
    rw [pc]
    rfl
  · refine ⟨⟨sentinel, ?_⟩, role, inMemory, limit⟩
    -- A wrapped oldest index would be above every `last_applied`.
    by_contra wrapped
    have above :
        ¬ result.1.server.raft.log.length - 1 ≤
          result.1.server.ring.tailLogIndex := by
      intro fits
      refine wrapped (Nat.le_add_of_sub_le fits)
    rw [Server.oldestLogIndex, sub64, if_neg above] at inMemory
    omega

/--
Exactly-once, in-order apply on a leader: over every run of one leadership,
appends that are rolled back included, there is one list of jobs, the entries
from the first `last_applied` on, such that in every state the log from
`last_applied` on continues the list, the state machine has got exactly the
non-empty commands of the jobs in front of it and their sinks exactly the
results of their own commands, and
`oldest_log_index() <= last_applied <= commit_index + 1`.
-/
theorem applied_exactly_once
    {n : Nat}
    {members : Membership n}
    {settings : Fin n → Settings}
    {node : Fin n}
    {before : List Input}
    {candidate leader final : Process}
    {election : Input}
    {inputs : List Input}
    (campaign :
      (members.boot settings node).Reaches before candidate)
    (wins : candidate.node.wins election.act = true)
    (elected : candidate.advance election = some leader)
    (running : leader.halted = false)
    (small :
      leader.server.raft.lastApplied + leader.server.raft.log.length ≤
        2 ^ 64)
    (inMemory :
      leader.server.oldestLogIndex ≤ leader.server.raft.lastApplied)
    (limit :
      leader.server.raft.lastApplied ≤ leader.server.raft.commitIndex + 1)
    (run :
      runWhile oneLeadership Process.advance leader inputs = some final) :
    ∃ jobs,
      ∀ earlier later middle,
        inputs = earlier ++ later →
        runWhile oneLeadership Process.advance leader earlier =
          some middle →
        leader.server.HasApplied jobs middle.server := by
  have leading :=
    Process.Leading.of_election
      (run_wellformed (boot_wellformed members settings node) campaign) wins elected
      running small inMemory limit
  obtain ⟨jobs, -, explained⟩ := leading.applies inputs run
  exact ⟨jobs, explained⟩

/--
The first leader appends two commands, loses a third one to a failed write,
commits with the answer of the second member, applies and collects.
-/
def appliedCommands : List Input :=
  [{ act := .apply 7 [[1], [2]] }, { act := .applySpawn 0 },
   { act := .apply 8 [[3]], outcomes := { writes := [.fails 0] } },
   { act := .appendSend 0 },
   { act := .appendReply 0 { term := 1, success := true } },
   { act := mainAct false }, { act := mainAct false },
   { act := mainAct false }, { act := .applyPending }, { act := .slotGc }]

/-- The two commands that stayed in the log reach the state machine. -/
theorem two_commands_applied_once :
    ∃ candidate leader final,
      firstNode.Reaches firstCampaign candidate ∧
        candidate.advance { act := mainAct false } = some leader ∧
          runWhile oneLeadership Process.advance leader appliedCommands =
              some final ∧
            (final.server.statemachine = [[1], [2]] ∧
              final.server.results = [(7, [1]), (7, [2])]) ∧
              ∃ jobs, leader.server.HasApplied jobs final.server := by
  obtain ⟨candidate, campaign, passes⟩ :
      ∃ candidate,
        runWhile (fun _ _ => true) Process.advance firstNode
            firstCampaign = some candidate ∧
          (candidate.node.wins (mainAct false) &&
            (candidate.advance { act := mainAct false }).any fun leader =>
              !leader.halted &&
                (decide (leader.server.raft.lastApplied +
                    leader.server.raft.log.length ≤ 2 ^ 64 ∧
                  leader.server.oldestLogIndex ≤
                    leader.server.raft.lastApplied ∧
                  leader.server.raft.lastApplied ≤
                    leader.server.raft.commitIndex + 1) &&
                  (runWhile oneLeadership Process.advance leader
                    appliedCommands).any fun final =>
                      decide (final.server.statemachine = [[1], [2]] ∧
                        final.server.results =
                          [(7, [1]), (7, [2])]))) = true :=
    runWhile_exists (by decide +kernel)
  obtain ⟨wins, passes⟩ := Bool.and_eq_true_iff.mp passes
  obtain ⟨leader, elected, passes⟩ := (Option.any_eq_true _ _).mp passes
  obtain ⟨running, passes⟩ := Bool.and_eq_true_iff.mp passes
  obtain ⟨start, passes⟩ := Bool.and_eq_true_iff.mp passes
  obtain ⟨small, inMemory, limit⟩ := of_decide_eq_true start
  obtain ⟨final, run, applied⟩ := (Option.any_eq_true _ _).mp passes
  obtain ⟨jobs, explained⟩ := applied_exactly_once campaign wins elected
    (by simpa using running) small inMemory limit run
  exact ⟨candidate, leader, final, campaign, elected, run,
    of_decide_eq_true applied, jobs,
    explained appliedCommands [] final (List.append_nil _).symm run⟩

end NvmeofRaft
