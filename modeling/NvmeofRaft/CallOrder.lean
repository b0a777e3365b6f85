import NvmeofRaft.CallingCluster

namespace NvmeofRaft

/-!
# The order of acknowledged calls

A client call takes effect where it passes Lock A.  Of two calls that a run of
the cluster acknowledges, on whatever members, the one that has passed Lock A
before the other has the lower indices.
-/

section

variable {n : Nat} {members : Membership n} {record : Record n}
variable {state next : CallingCluster n} {move : ClientMove n}

/-- A record at every position of a run. -/
structure RecordedRun
    (members : Membership n)
    (start : CallingCluster n)
    (moves : List (ClientMove n))
    (records : Nat → Record n) : Prop where
  recorded :
    ∀ position reached,
      runWhile callsKept CallingCluster.step start (moves.take position) =
        some reached →
      reached.cluster.Recorded members (records position)
  grows :
    ∀ position, (records position).Grows (records (position + 1))
  keeps :
    ∀ position member,
      (∀ move, moves[position]? = some move → move.member = member →
        move.move.restarts = false) →
      (records position).full member <+: (records (position + 1)).full member

theorem Record.Grows.refl
    (record : Record n) :
    record.Grows record :=
  ⟨fun _ => List.prefix_rfl, fun _ _ _ acks => acks⟩

/-- Growth is transitive. -/
theorem Record.Grows.trans
    {middle later : Record n}
    (first : record.Grows middle)
    (second : middle.Grows later) :
    record.Grows later :=
  ⟨fun term => (first.lines term).trans (second.lines term),
    fun member term index acks =>
      second.acks member term index (first.acks member term index acks)⟩

/-- A step of the nodes with their calls keeps what is recorded. -/
theorem CallingCluster.recorded_step
    (recorded : state.cluster.Recorded members record)
    (allowed : callsKept state move = true)
    (stepped : state.step move = some next) :
    ∃ later,
      next.cluster.Recorded members later ∧ record.Grows later ∧
        ∀ member,
          (move.member = member → move.move.restarts = false) →
          record.full member <+: later.full member := by
  obtain ⟨-, -, ran⟩ := CallingCluster.step_node stepped
  unfold callsKept at allowed
  split at ran
  · rename_i input held
    rw [held] at allowed
    obtain ⟨later, holds, grows, keeps⟩ :=
      recorded_step_keeps recorded allowed ran
    refine ⟨later, holds, grows, fun member stays => keeps member ?_⟩
    intro here
    exact (CallingNode.input_restarts held).trans (stays here)
  · rw [ran]
    exact ⟨record, recorded, .refl record, fun _ _ => List.prefix_rfl⟩

/-- Every run has its records. -/
theorem CallingCluster.recorded_run
    {moves : List (ClientMove n)} :
    ∀ {state : CallingCluster n} {record : Record n},
      state.cluster.Recorded members record →
      runWhile callsKept CallingCluster.step state moves = some next →
      ∃ records,
        records 0 = record ∧ RecordedRun members state moves records := by
  induction moves with
  | nil =>
      intro state record recorded run
      refine ⟨fun _ => record, rfl, ?_, fun _ => .refl record,
        fun _ _ _ => List.prefix_rfl⟩
      intro position reached same
      rw [List.take_nil, runWhile, Option.some.injEq] at same
      exact same ▸ recorded
  | cons move moves inductionHypothesis =>
      intro state record recorded run
      obtain ⟨middle, allowed, stepped, rest⟩ := runWhile_cons run
      obtain ⟨later, holds, grows, keeps⟩ :=
        CallingCluster.recorded_step recorded allowed stepped
      obtain ⟨records, rfl, along⟩ := inductionHypothesis holds rest
      refine ⟨fun position => position.casesOn record records, rfl, ?_, ?_, ?_⟩
      · rintro (_ | position) reached same
        · rw [List.take_zero, runWhile, Option.some.injEq] at same
          exact same ▸ recorded
        · rw [List.take_succ_cons, runWhile_of_step allowed stepped] at same
          exact along.recorded position reached same
      · rintro (_ | position)
        · exact grows
        · exact along.grows position
      · rintro (_ | position) member stays
        · exact keeps member (stays move rfl)
        · exact along.keeps position member stays

section

variable {start : CallingCluster n} {moves : List (ClientMove n)}
variable {records : Nat → Record n} {earlier later : Nat}

/-- Records grow along a run. -/
theorem RecordedRun.grows_to
    (run : RecordedRun members start moves records)
    (ordered : earlier ≤ later) :
    (records earlier).Grows (records later) := by
  induction ordered with
  | refl => exact .refl _
  | step _ inductionHypothesis =>
      exact inductionHypothesis.trans (run.grows _)

/-- The log of a node grows until the node is restarted. -/
theorem RecordedRun.keeps_to
    {member : Fin n}
    (run : RecordedRun members start moves records)
    (ordered : earlier ≤ later)
    (stays :
      ∀ position move,
        earlier ≤ position →
        position < later →
        moves[position]? = some move →
        move.member = member →
        move.move.restarts = false) :
    (records earlier).full member <+: (records later).full member := by
  induction ordered with
  | refl => exact List.prefix_rfl
  | @step later ordered inductionHypothesis =>
      refine (inductionHypothesis fun position move from' before =>
        stays position move from' (Nat.lt_succ_of_lt before)).trans ?_
      exact run.keeps later member fun move =>
        stays later move ordered (Nat.lt_succ_self later)

end

end

section

variable {node next : CallingNode} {move : CallMove} {sink first : Nat}
variable {call : Call}

/-- A leader has given commands the indices from `first` on. -/
structure CallingNode.Replicates
    (node next : CallingNode)
    (commands : List (List UInt8))
    (first : Nat) : Prop where
  nonempty : commands ≠ []
  leads : node.proc.server.raft.state = .leader
  begins : node.proc.server.ring.tailLogIndex = first
  stays : next.proc.server.raft.state = .leader
  term :
    next.proc.server.raft.currentTerm = node.proc.server.raft.currentTerm
  ends : next.proc.server.ring.tailLogIndex = first + commands.length

/-- Lock A that has appended. -/
theorem CallingNode.Sound.replicates
    {outcomes : IoOutcomes}
    {result : Process × Outputs}
    (sound : node.Sound)
    (stepped :
      node.proc.step outcomes (.apply sink call.commands) = some result)
    (nonempty : call.commands ≠ [])
    (pushed :
      result.1.server.entryView = node.proc.server.entryView.push
        (clientEntries node.proc.server.entryView.term sink
          call.commands)) :
    node.Replicates { proc := result.1 } call.commands
      node.proc.server.ring.tailLogIndex := by
  have longer :
      result.1.server.ring.tailLogIndex =
        node.proc.server.ring.tailLogIndex + call.commands.length := by
    have tails := congrArg EntryView.tail pushed
    rw [EntryView.push, clientEntries, List.length_map] at tails
    exact tails
  have positive := List.length_pos_of_ne_nil nonempty
  have leads : node.proc.server.raft.state = .leader := by
    have entries := sound.started.entryStep stepped rfl
    generalize viewed : result.1.server.entryView = after at entries
    cases entries with
    | kept =>
        have tails :
            result.1.server.ring.tailLogIndex =
              node.proc.server.ring.tailLogIndex :=
          congrArg EntryView.tail viewed
        omega
    | bumped carries => cases carries
    | appended leader => exact leader
  refine ⟨nonempty, leads, rfl, ?_, congrArg EntryView.term pushed, longer⟩
  exact (congrArg EntryView.role pushed).trans leads

/-- What Lock A does to the first indices of the calls. -/
theorem CallingNode.Sound.lockA_origin
    {outcomes : IoOutcomes}
    {index : Nat}
    {locked : Call}
    (sound : node.Sound)
    (held : node.calls[index]? = some locked)
    (stepped : node.stepLockA index locked outcomes = some next)
    (found : next.calls[sink]? = some call)
    (begins : call.first = some first) :
    (∃ old, node.calls[sink]? = some old ∧ old.batch = call.batch) ∨
      sink = index ∧ node.Replicates next call.commands first := by
  obtain ⟨outcome, result, ends, rfl, settled⟩ :=
    CallingNode.stepLockA_ends
      (fun running => (sound.indexed running).covered_entries.1.sentinel)
      stepped
  obtain ⟨new, inCalls, rfl⟩ := after_call found
  rcases set_call held inCalls with ⟨rfl, rfl⟩ | ⟨-, old⟩
  · cases outcome with
    | replicating =>
        rw [observe_first] at begins
        obtain rfl := Option.some.inj begins
        rw [observe_commands]
        obtain ⟨nonempty, leads, begins, stays, term, ends⟩ :=
          sound.replicates ends settled.1 settled.2
        exact Or.inr ⟨rfl, nonempty, leads, begins, stays, term, ends⟩
    | _ =>
        refine Or.inl ⟨locked, held, ?_⟩
        rw [observe_batch]
        rfl
  · exact Or.inl ⟨new, old, observe_batch.symm⟩

/-- The first index of a call is an old one, or Lock A has just given it. -/
theorem CallingNode.Sound.first_origin
    (sound : node.Sound)
    (stepped : node.step move = some next)
    (found : next.calls[sink]? = some call)
    (begins : call.first = some first) :
    (move.restarts = false ∧
        ∃ old,
          node.calls[sink]? = some old ∧ old.batch = call.batch) ∨
      ∃ outcomes,
        move = .lockA sink outcomes ∧
          node.Replicates next call.commands first := by
  have goesOn :
      move.restarts = false →
      node.goOn move = some next →
      (move.restarts = false ∧
          ∃ old,
            node.calls[sink]? = some old ∧ old.batch = call.batch) ∨
        ∃ outcomes,
          move = .lockA sink outcomes ∧
            node.Replicates next call.commands first := by
    intro runs stepped
    unfold CallingNode.goOn at stepped
    split at stepped
    · rename_i index running target
      split at stepped
      · rename_i old held
        have unchanged :
            ∀ {new : Call},
              some (node.setCall index new) = some next →
              new.batch = old.batch →
              ∃ before,
                node.calls[sink]? = some before ∧
                  before.batch = call.batch := by
          intro new ends same
          obtain rfl := Option.some.inj ends
          rcases set_call held found with ⟨rfl, rfl⟩ | ⟨-, before⟩
          · exact ⟨old, held, same.symm⟩
          · exact ⟨call, before, rfl⟩
        unfold CallingNode.stepCall at stepped
        split at stepped
        · obtain rfl := Option.some.inj target
          rcases sound.lockA_origin held stepped found begins with
            before | ⟨rfl, replicates⟩
          · exact Or.inl ⟨runs, before⟩
          · exact Or.inr ⟨_, rfl, replicates⟩
        · obtain rfl := Option.some.inj target
          rcases sound.lockA_origin held stepped found begins with
            before | ⟨rfl, replicates⟩
          · exact Or.inl ⟨runs, before⟩
          · exact Or.inr ⟨_, rfl, replicates⟩
        · exact Or.inl ⟨runs, unchanged stepped rfl⟩
        · exact Or.inl ⟨runs, unchanged stepped rfl⟩
        · exact Or.inl ⟨runs, unchanged stepped rfl⟩
        · exact Or.inl ⟨runs, unchanged stepped rfl⟩
        · cases stepped
      · cases stepped
    · cases stepped
  cases move with
  | enter commands =>
      rw [CallingNode.step] at stepped
      split at stepped
      · cases stepped
      · obtain rfl := Option.some.inj stepped
        dsimp only at found
        rw [List.getElem?_append] at found
        split at found
        · exact Or.inl ⟨rfl, call, found, rfl⟩
        · obtain rfl :=
            List.mem_singleton.mp (List.mem_of_getElem? found)
          cases begins
  | node input =>
      rw [CallingNode.step] at stepped
      split at stepped
      · cases stepped
      · obtain ⟨proc, -, rfl⟩ := Option.map_eq_some_iff.mp stepped
        obtain ⟨old, held, rfl⟩ := after_call found
        cases restarts : input.act.isRestart with
        | true =>
            rw [restarts] at held
            cases held
        | false =>
            rw [restarts] at held
            exact Or.inl ⟨restarts, old, held, observe_batch.symm⟩
  | _ => exact goesOn rfl stepped

end

section

variable {n : Nat} {members : Membership n} {settings : Fin n → Settings}
variable {start : CallingCluster n} {moves : List (ClientMove n)}
variable {count position sink first : Nat} {member : Fin n}
variable {commands : List (List UInt8)}

/--
A call passes Lock A at a position of the run, where its commands get the
indices from `first` on, and its node is not restarted before `count`.
-/
structure CallingCluster.AppendsAt
    (start : CallingCluster n)
    (moves : List (ClientMove n))
    (count position : Nat)
    (member : Fin n)
    (sink : Nat)
    (commands : List (List UInt8))
    (first : Nat) : Prop where
  within : position < count
  appended :
    ∃ outcomes before after,
      moves[position]? = some { member, move := .lockA sink outcomes } ∧
        runWhile callsKept CallingCluster.step start (moves.take position) =
            some before ∧
          runWhile callsKept CallingCluster.step start
              (moves.take (position + 1)) =
            some after ∧
          (before.node member).Replicates (after.node member) commands first
  stays :
    ∀ later move,
      position < later →
      later < count →
      moves[later]? = some move →
      move.member = member →
      move.move.restarts = false

/-- The call has returned without an error after `count` moves. -/
structure CallingCluster.Acknowledges
    (start : CallingCluster n)
    (moves : List (ClientMove n))
    (count position : Nat)
    (member : Fin n)
    (sink : Nat)
    (commands : List (List UInt8))
    (first : Nat) : Prop
    extends start.AppendsAt moves count position member sink commands
      first where
  returned :
    ∃ answered call,
      runWhile callsKept CallingCluster.step start (moves.take count) =
          some answered ∧
        (answered.calls member)[sink]? = some call ∧
          call.batch = { commands, first := some first } ∧
            call.pc = .returned none

/-- Every call that has a first index has got it at some position. -/
theorem CallingCluster.appends_at
    (sound : start.Sound)
    (noCalls : ∀ member, start.calls member = [])
    (moves : List (ClientMove n))
    (count : Nat) :
    ∀ {answered : CallingCluster n},
      runWhile callsKept CallingCluster.step start (moves.take count) =
        some answered →
      answered.Sound ∧
        ∀ member (sink : Nat) (call : Call) first,
          (answered.calls member)[sink]? = some call →
          call.first = some first →
          ∃ position,
            start.AppendsAt moves count position member sink call.commands
              first := by
  induction count with
  | zero =>
      intro answered run
      rw [List.take_zero, runWhile, Option.some.injEq] at run
      rw [← run]
      refine ⟨sound, fun member sink call first found => ?_⟩
      rw [noCalls] at found
      cases found
  | succ count inductionHypothesis =>
      intro answered run
      have whole := run
      rw [List.take_add_one] at run
      cases here : moves[count]? with
      | none =>
          rw [here, Option.toList_none, List.append_nil] at run
          obtain ⟨before, traced⟩ := inductionHypothesis run
          refine ⟨before, fun member sink call first found begins => ?_⟩
          obtain ⟨position, within, appended, stays⟩ :=
            traced member sink call first found begins
          refine ⟨position, within.trans (Nat.lt_succ_self count), appended,
            fun later move behind below found => ?_⟩
          rcases Nat.lt_succ_iff_lt_or_eq.mp below with below | rfl
          · exact stays later move behind below found
          · rw [here] at found
            cases found
      | some move =>
          rw [here, Option.toList_some] at run
          obtain ⟨middle, reached, allowed, stepped⟩ := runWhile_concat run
          obtain ⟨before, traced⟩ := inductionHypothesis reached
          obtain ⟨own, others, -⟩ := CallingCluster.step_node stepped
          refine ⟨(before.step allowed stepped).1,
            fun member sink call first found begins => ?_⟩
          have longer :
              ∀ {commands : List (List UInt8)},
                (move.member = member → move.move.restarts = false) →
                (∃ position,
                  start.AppendsAt moves count position member sink commands
                    first) →
                ∃ position,
                  start.AppendsAt moves (count + 1) position member sink
                    commands first := by
            rintro commands runs ⟨position, within, appended, stays⟩
            refine ⟨position, within.trans (Nat.lt_succ_self count), appended,
              fun later other behind below held same => ?_⟩
            rcases Nat.lt_succ_iff_lt_or_eq.mp below with below | rfl
            · exact stays later other behind below held same
            · rw [here, Option.some.injEq] at held
              subst held
              exact runs same
          by_cases mine : member = move.member
          · subst mine
            rcases (before move.member).first_origin own found begins with
              ⟨runs, old, held, same⟩ | ⟨outcomes, locks, replicates⟩
            · have commands : old.commands = call.commands :=
                congrArg Batch.commands same
              rw [← commands]
              exact longer (fun _ => runs) (traced _ sink old first held
                ((Call.first_of_batch same).trans begins))
            · refine ⟨count, Nat.lt_succ_self count,
                ⟨outcomes, middle, answered, ?_, reached, whole, replicates⟩,
                fun later other behind below => ?_⟩
              · rw [here, ← locks]
              · exact absurd behind (Nat.not_lt.mpr (Nat.le_of_lt_succ below))
          · have same : answered.calls member = middle.calls member :=
              congrArg CallingNode.calls (others member mine)
            rw [same] at found
            exact longer (fun other => absurd other.symm mine)
              (traced member sink call first found begins)

/-- A leader's log is the line of its term, as long as its tail says. -/
theorem Cluster.Recorded.leader_line
    {cluster : Cluster n}
    {record : Record n}
    (recorded : cluster.Recorded members record)
    (leads : (cluster.procs member).server.raft.state = .leader) :
    record.line (cluster.procs member).server.raft.currentTerm =
        record.full member ∧
      (record.full member).length + 1 =
        (cluster.procs member).server.ring.tailLogIndex :=
  ⟨recorded.matching.leader member leads,
    (recorded.leads member leads).tail.symm⟩

/-- The line of a leader's term ends with an entry of the term. -/
theorem Cluster.Recorded.leader_last
    {cluster : Cluster n}
    {record : Record n}
    (recorded : cluster.Recorded members record)
    (leads : (cluster.procs member).server.raft.state = .leader) :
    let term := (cluster.procs member).server.raft.currentTerm
    0 < (record.line term).length ∧
      (record.line term)[(record.line term).length - 1]? = some term := by
  have won : cluster.Won (cluster.node member).view.term :=
    ⟨member, ((recorded.matching.reign member).leading leads).2⟩
  obtain ⟨others, shape⟩ :=
    recorded.sound.votes.elections.shape _ won
  dsimp only
  have same :
      (cluster.node member).view.term =
        (cluster.procs member).server.raft.currentTerm :=
    rfl
  rw [same] at shape
  rw [shape, List.replicate_succ', ← List.append_assoc,
    ← List.getLast?_eq_getElem?, List.getLast?_concat]
  exact ⟨by simp, rfl⟩

/-- What Lock A adds to the line of the leader's term. -/
theorem CallingCluster.AppendsAt.lines
    {records : Nat → Record n}
    (appends :
      start.AppendsAt moves count position member sink commands first)
    (run : RecordedRun members start moves records) :
    ∃ term,
      ((records position).line term).length + 1 = first ∧
        ((records (position + 1)).line term).length + 1 =
            first + commands.length ∧
          ((records (position + 1)).line term)[first - 1]? = some term ∧
            (records (position + 1)).line term <+:
              (records count).full member := by
  obtain ⟨within, ⟨outcomes, before, after, here, reached, left, locks⟩,
    stays⟩ := appends
  have recorded := run.recorded position before reached
  have holds := run.recorded (position + 1) after left
  obtain ⟨line, tail⟩ := recorded.leader_line locks.leads
  obtain ⟨lineAfter, tailAfter⟩ := holds.leader_line locks.stays
  obtain ⟨positive, last⟩ := recorded.leader_last locks.leads
  have term :
      (after.cluster.procs member).server.raft.currentTerm =
        (before.cluster.procs member).server.raft.currentTerm :=
    locks.term
  have begins :
      (before.cluster.procs member).server.ring.tailLogIndex = first :=
    locks.begins
  have ends :
      (after.cluster.procs member).server.ring.tailLogIndex =
        first + commands.length :=
    locks.ends
  have added := List.length_pos_of_ne_nil locks.nonempty
  rw [term] at lineAfter
  rw [begins, ← line] at tail
  rw [ends, ← lineAfter] at tailAfter
  generalize (before.cluster.procs member).server.raft.currentTerm = term
    at line lineAfter positive last tail tailAfter
  refine ⟨term, tail, tailAfter, ?_, ?_⟩
  · obtain ⟨rest, longer⟩ := (run.grows position).lines term
    rw [← List.getElem?_append_left (by omega), longer] at last
    exact holds.sound.votes.elections.own_behind last (by omega) (by omega)
  · rw [lineAfter]
    exact run.keeps_to within fun later move behind below =>
      stays later move behind below

/-- The log of the call's node is backed to the end of the call. -/
theorem CallingCluster.Acknowledges.backed
    {records : Nat → Record n}
    (acknowledges :
      (members.calling settings).Acknowledges moves count position member sink
        commands first)
    (run : RecordedRun members (members.calling settings) moves records) :
    ∃ bound index,
      Backed (records count).line (records count).acked bound index
          ((records count).full member) ∧
        first + commands.length ≤ index + 1 := by
  obtain ⟨-, ⟨_, _, _, -, -, -, locks⟩, -⟩ :=
    acknowledges.toAppendsAt
  obtain ⟨answered, call, reached, found, batch, returned⟩ :=
    acknowledges.returned
  have recorded := run.recorded count answered reached
  obtain ⟨sound, -⟩ :=
    CallingCluster.appends_at (calling_sound members settings) (fun _ => rfl)
      moves count reached
  have own : call.commands = commands := congrArg Batch.commands batch
  have begins : call.first = some first := congrArg Batch.first batch
  have consistent := ((sound member).kept sink call found).consistent
  rw [Call.Consistent, returned, own] at consistent
  obtain ⟨first', same, within⟩ :=
    (sound member).committed sink call found
      (consistent.resolve_left locks.nonempty)
  rw [begins, Option.some.injEq] at same
  subst same
  refine ⟨_, _, recorded.sound.commits member, ?_⟩
  have last : call.last first ≤ (answered.cluster.node member).view.commit :=
    within
  rw [Call.last, own] at last
  omega

/-- The call that has passed Lock A first comes first. -/
theorem CallingCluster.Acknowledges.before
    {records : Nat → Record n}
    {laterCount laterPosition laterSink laterFirst : Nat}
    {laterMember : Fin n}
    {laterCommands : List (List UInt8)}
    (acknowledges :
      (members.calling settings).Acknowledges moves count position member sink
        commands first)
    (follows :
      (members.calling settings).Acknowledges moves laterCount laterPosition
        laterMember laterSink laterCommands laterFirst)
    (run : RecordedRun members (members.calling settings) moves records)
    (ordered : position < laterPosition) :
    first + commands.length ≤ laterFirst := by
  obtain ⟨term, -, long, -, kept⟩ := acknowledges.toAppendsAt.lines run
  obtain ⟨laterTerm, short, ends, appended, laterKept⟩ :=
    follows.toAppendsAt.lines run
  obtain ⟨bound, index, backed, within⟩ := acknowledges.backed run
  obtain ⟨laterBound, laterIndex, laterBacked, laterWithin⟩ :=
    follows.backed run
  obtain ⟨finish, ⟨state, recorded⟩, here, there⟩ :
      ∃ finish,
        (∃ state : CallingCluster n,
          state.cluster.Recorded members (records finish)) ∧
          count ≤ finish ∧ laterCount ≤ finish := by
    obtain ⟨answered, _, reached, -⟩ := acknowledges.returned
    obtain ⟨laterAnswered, _, laterReached, -⟩ := follows.returned
    rcases Nat.le_total count laterCount with sooner | sooner
    · exact ⟨laterCount, ⟨_, run.recorded laterCount _ laterReached⟩, sooner,
        le_refl _⟩
    · exact ⟨count, ⟨_, run.recorded count _ reached⟩, le_refl _, sooner⟩
  obtain ⟨_, locked, _, -, reached, -, locks⟩ := follows.appended
  have early := run.recorded laterPosition locked reached
  have added := List.length_pos_of_ne_nil locks.nonempty
  -- the line of the first call, as it is when the other call passes Lock A
  have next : position + 1 ≤ laterPosition := ordered
  have line := (run.grows_to next).lines term
  have whole := take_of_front line (le_refl _)
  rw [List.take_length] at whole
  have entry :
      ((records laterCount).full laterMember)[laterFirst - 1]? =
        some laterTerm := by
    obtain ⟨rest, longer⟩ := laterKept
    rw [← longer, List.getElem?_append_left
      (List.getElem?_eq_some_iff.mp appended).1]
    exact appended
  have onward := run.grows_to here
  have laterOnward := run.grows_to there
  have behind :=
    early.sound.votes.elections.appended_behind
      recorded.sound.votes.elections
      (backed.mono onward.lines onward.acks (le_refl _) List.prefix_rfl)
      (laterBacked.mono laterOnward.lines laterOnward.acks (le_refl _)
        List.prefix_rfl)
      (whole.symm ▸ kept) line.length_le (by omega) entry (by omega)
      (by omega)
  omega

/--
Acknowledged calls take effect in the order of their Lock A.  In a run of the
cluster that meets the commit condition, every non-empty call that has returned
without an error has passed Lock A at some position of the run, as the call of
a leader and with its commands at consecutive indices; and of two such calls,
whatever their members and whenever they return, the indices of the one that has
passed Lock A before the other are below those of the other.
-/
theorem acknowledged_calls_in_order
    {final : CallingCluster n}
    (run :
      runWhile callsKept CallingCluster.step (members.calling settings) moves =
        some final) :
    (∀ count answered member (sink : Nat) (call : Call),
        runWhile callsKept CallingCluster.step (members.calling settings)
            (moves.take count) = some answered →
        (answered.calls member)[sink]? = some call →
        call.pc = .returned none →
        call.commands ≠ [] →
        ∃ position first,
          call.first = some first ∧
            (members.calling settings).Acknowledges moves count position member
              sink call.commands first) ∧
      ∀ count position member sink commands first
        laterCount laterPosition laterMember laterSink laterCommands
        laterFirst,
        (members.calling settings).Acknowledges moves count position member
          sink commands first →
        (members.calling settings).Acknowledges moves laterCount laterPosition
          laterMember laterSink laterCommands laterFirst →
        position < laterPosition →
        first + commands.length ≤ laterFirst := by
  constructor
  · intro count answered member sink call reached found returned nonempty
    obtain ⟨sound, traced⟩ :=
      CallingCluster.appends_at (calling_sound members settings)
        (fun _ => rfl) moves count reached
    have consistent := ((sound member).kept sink call found).consistent
    rw [Call.Consistent, returned] at consistent
    obtain ⟨first, begins, -⟩ :=
      (sound member).committed sink call found
        (consistent.resolve_left nonempty)
    obtain ⟨position, appends⟩ := traced member sink call first found begins
    exact ⟨position, first, begins, appends, answered, call, reached, found,
      by rw [Call.batch, begins], returned⟩
  · obtain ⟨records, -, recorded⟩ :=
      CallingCluster.recorded_run (start_recorded members settings) run
    intro count position member sink commands first laterCount laterPosition
      laterMember laterSink laterCommands laterFirst acknowledges follows
      ordered
    exact acknowledges.before follows recorded ordered

end

/-- A ring of four pages in one extent. -/
def fourPages : Settings where
  numPages := 4
  extents := [{ logical := 0, physical := 4096, length := 16384 }]

/-- The first leader's request for a no-op entry and two commands. -/
def threeEntries : AppendEntriesRequest :=
  { twoEntries firstMember 1 with
    logBlockLength := 3
    numEntries := 3
    entryMetas := [{ term := 1, cmdLen := 0 }, { term := 1, cmdLen := 1 },
      { term := 1, cmdLen := 1 }] }

/-- Of two calls, the second one passes Lock A before the first one. -/
def overtakenCall : List (ClientMove 3) :=
  firstElection.map Move.aside ++
  [onFirst (.enter [[1]]), onFirst (.enter [[2]]), onFirst (.lockA 1 {}),
   onFirst (.lockA 0 {})] ++
  [moveOf firstMember (.applySpawn 1), moveOf firstMember (.appendSend 2),
   moveOf secondMember (.handleAppend 0 threeEntries),
   moveOf secondMember (.handleAppendFinish 0 true),
   moveOf firstMember (.appendReply 2 { term := 1, success := true }),
   moveOf firstMember (mainAct false), moveOf firstMember (mainAct true),
   moveOf firstMember (mainAct false), moveOf firstMember (mainAct false),
   moveOf firstMember .applyPending].map Move.aside ++
  [onFirst (.lookAtSignal 0), onFirst (.collect 0), onFirst (.lookAtSignal 1),
   onFirst (.collect 1)]

/-- A call whose command has been applied. -/
def returnedCall
    (command : List UInt8)
    (first : Nat) :
    Call where
  commands := [command]
  pc := .returned none
  first := some first
  signaled := true

/-- The second call has the lower index, though it returns last. -/
theorem second_call_overtakes :
    ∃ earlier later,
      (threeMembers.calling fun _ => fourPages).Acknowledges overtakenCall 28
          earlier firstMember 1 [[2]] 2 ∧
        (threeMembers.calling fun _ => fourPages).Acknowledges overtakenCall 28
            later firstMember 0 [[1]] 3 ∧
          earlier ≤ later := by
  obtain ⟨final, run, passed⟩ :
      ∃ final,
        runWhile callsKept CallingCluster.step
            (threeMembers.calling fun _ => fourPages) overtakenCall =
            some final ∧
          decide (final.calls firstMember =
            [returnedCall [1] 3, returnedCall [2] 2]) = true :=
    runWhile_exists (by decide +kernel)
  have calls := of_decide_eq_true passed
  have whole :
      runWhile callsKept CallingCluster.step
          (threeMembers.calling fun _ => fourPages) (overtakenCall.take 28) =
        some final :=
    run
  obtain ⟨acknowledged, ordered⟩ := acknowledged_calls_in_order run
  obtain ⟨later, _, ⟨rfl⟩, slow⟩ :=
    acknowledged 28 final firstMember 0 (returnedCall [1] 3) whole
      (by rw [calls]; rfl) rfl (List.cons_ne_nil _ _)
  obtain ⟨earlier, _, ⟨rfl⟩, fast⟩ :=
    acknowledged 28 final firstMember 1 (returnedCall [2] 2) whole
      (by rw [calls]; rfl) rfl (List.cons_ne_nil _ _)
  refine ⟨earlier, later, fast, slow, Nat.le_of_not_lt fun before => ?_⟩
  have impossible : 3 + 1 ≤ 2 :=
    ordered _ _ _ _ _ _ _ _ _ _ _ _ slow fast before
  omega

end NvmeofRaft
