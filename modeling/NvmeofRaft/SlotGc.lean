import Mathlib.Order.Bounds.Defs
import NvmeofRaft.Authenticity
import NvmeofRaft.Progress

namespace NvmeofRaft

/-!
# Slot garbage collection

`do_slot_gc` visits only the indices between the last collected one and
`min_match`.  It finds every record a full scan would find as long as no record
stands at or below `gc_up_to`: a leader appends behind its tail, and its tail is
beyond what it has collected until an append handler of an earlier term moves it
back.
-/

/-- What bounds a collection: the own last index and the peers' matches. -/
def Server.matchBounds (server : Server) : Set Nat :=
  { bound |
    bound = server.ring.tailLogIndex - 1 ∨
      ∃ index member,
        index ≠ server.raft.clusterIndex ∧
          server.raft.cluster[index]? = some member ∧
            member.matchIndex = bound }

/-- The lowest of a list and a start value. -/
theorem isLeast_foldl_min :
    ∀ (values : List Nat) (start : Nat),
      IsLeast { bound | bound = start ∨ bound ∈ values }
        (values.foldl min start) := by
  intro values
  induction values with
  | nil =>
      intro start
      refine ⟨Or.inl rfl, ?_⟩
      rintro bound (rfl | impossible)
      · exact le_refl _
      · cases impossible
  | cons value rest inductionHypothesis =>
      intro start
      obtain ⟨member, lower⟩ := inductionHypothesis (min start value)
      refine ⟨?_, ?_⟩
      · rcases member with lowest | inside
        · rcases min_choice start value with left | right
          · exact Or.inl (lowest.trans left)
          · exact Or.inr (List.mem_cons.mpr (Or.inl (lowest.trans right)))
        · exact Or.inr (List.mem_cons_of_mem _ inside)
      · have first := lower (Or.inl rfl)
        rintro bound (rfl | inside)
        · exact first.trans (min_le_left _ _)
        · rcases List.mem_cons.mp inside with rfl | later
          · exact first.trans (min_le_right _ _)
          · exact lower (Or.inr later)

/-- `min_match` is the lowest of the bounds. -/
theorem minMatch_isLeast
    (server : Server) :
    IsLeast server.matchBounds server.minMatch := by
  have last : server.lastLogIndex = server.ring.tailLogIndex - 1 := rfl
  obtain ⟨member, lower⟩ :=
    isLeast_foldl_min server.matchIndices server.lastLogIndex
  refine ⟨?_, ?_⟩
  · rcases member with own | peer
    · exact Or.inl (own.trans last)
    · obtain ⟨index, found⟩ := List.mem_iff_getElem?.mp peer
      rw [Server.matchIndices, List.getElem?_mapIdx] at found
      obtain ⟨member, here, value⟩ := Option.map_eq_some_iff.mp found
      by_cases own : index = server.raft.clusterIndex
      · rw [if_pos own] at value
        exact Or.inl (value.symm.trans last)
      · rw [if_neg own] at value
        exact Or.inr ⟨index, member, own, here, value⟩
  · rintro bound (rfl | ⟨index, member, other, here, rfl⟩)
    · exact lower (Or.inl last.symm)
    · refine lower (Or.inr (List.mem_iff_getElem?.mpr ⟨index, ?_⟩))
      rw [Server.matchIndices, List.getElem?_mapIdx, here]
      simp [other]

/-- The erase loop, index by index. -/
theorem lookup_eraseSlots_eq :
    ∀ (count first : Nat) (slots : SlotMap) (logIdx : Nat),
      (eraseSlots count first slots).lookup logIdx =
        if first ≤ logIdx ∧ logIdx < first + count then
          none
        else
          slots.lookup logIdx := by
  intro count
  induction count with
  | zero =>
      intro first slots logIdx
      rw [eraseSlots, if_neg (by omega)]
  | succ count inductionHypothesis =>
      intro first slots logIdx
      rw [eraseSlots, inductionHypothesis]
      by_cases same : logIdx = first
      · subst same
        rw [AList.lookup_erase, if_neg (by omega), if_pos (by omega)]
      · rw [AList.lookup_erase_ne same]
        exact if_congr (by omega) rfl rfl

/-- The records that a scan of the whole map keeps. -/
def SlotMap.scanned
    (slots : SlotMap)
    (minMatch logIdx : Nat) :
    Option SlotRecord :=
  if minMatch < logIdx then slots.lookup logIdx else none

/-- Records stand only above the collected indices. -/
def SlotView.Collected (slotView : SlotView) : Prop :=
  ∀ logIdx record,
    slotView.slots.lookup logIdx = some record → slotView.gcUpTo < logIdx

/-- Then the loop keeps what a scan of the whole map keeps. -/
theorem SlotView.Collected.scanned_eq
    {slotView : SlotView}
    (collected : slotView.Collected)
    (minMatch logIdx : Nat) :
    (eraseSlots (minMatch - slotView.gcUpTo) (slotView.gcUpTo + 1)
        slotView.slots).lookup logIdx =
      slotView.slots.scanned minMatch logIdx := by
  rw [lookup_eraseSlots_eq, SlotMap.scanned]
  cases held : slotView.slots.lookup logIdx with
  | none =>
      rw [ite_self, ite_self]
  | some record =>
      have above := collected logIdx record held
      by_cases kept : minMatch < logIdx
      · rw [if_pos kept, if_neg (by omega)]
      · rw [if_neg kept, if_pos (by omega)]

/-- An election that is won collects from the beginning again. -/
theorem Process.step_elects
    {proc : Process}
    {outcomes : IoOutcomes}
    {act : Act}
    {result : Process × Outputs}
    (sentinel : proc.server.view.log ≠ [])
    (stepped : proc.step outcomes act = some result)
    (wins : proc.node.wins act = true) :
    SlotView.Gains proc.server.ring.tailLogIndex
      { slots := proc.server.ring.logSlotMap.markUsing, gcUpTo := 0 }
      result.1.server.slotView := by
  cases act with
  | main expired load =>
      obtain ⟨atElection, quorum⟩ := Bool.and_eq_true_iff.mp wins
      have pc : proc.main = .becomeLeader := of_decide_eq_true atElection
      have won : proc.server.quorumLeft = 0 := by
        rw [quorumLeft_eq]
        exact of_decide_eq_true quorum
      simp only [Process.step] at stepped
      split at stepped
      · cases stepped
      · cases stepped
        simp only [Process.stepMain, pc, won, if_true]
        exact execOrHalt_wp
          (fun result : Process × Outputs =>
            SlotView.Gains proc.server.ring.tailLogIndex
              { slots := proc.server.ring.logSlotMap.markUsing, gcUpTo := 0 }
              result.1.server.slotView)
          (becomeLeader_elects load sentinel won)
          (fun _ _ gained => gained) fun _ _ gained => gained
  | _ =>
      cases wins

/--
A handler that finishes on a leader leaves the tail above what has been
collected.
-/
def gcStaysBehind
    (proc : Process)
    (input : Input) :
    Bool :=
  match input.act with
  | .handleAppendFinish index true =>
      match proc.threads[index]? with
      | some (.appendHandler _ pending) =>
          decide (proc.server.raft.state = .leader →
            pending.req.entryMetas.length = pending.req.numEntries →
            proc.server.ring.gcUpTo <
              pending.newTail + pending.req.numEntries)
      | _ => true
  | _ => true

/-- What the loop of `do_slot_gc` rests on. -/
structure Process.GcReady (proc : Process) : Prop where
  wellformed : proc.Wellformed
  reach : proc.node.HandlersReach
  started : proc.halted = false → 0 < proc.server.ring.tailLogIndex
  collected : proc.server.slotView.Collected
  behind :
    proc.server.raft.state = .leader →
    proc.server.ring.gcUpTo < proc.server.ring.tailLogIndex

/-- Records from an index on do not fall behind a lower `gc_up_to`. -/
theorem SlotView.Collected.gains
    {low : Nat}
    {before after : SlotView}
    (collected : before.Collected)
    (behind : before.gcUpTo < low)
    (gained : SlotView.Gains low before after) :
    after.Collected := by
  intro logIdx record held
  rw [gained.gcUpTo]
  rcases gained.records logIdx record held with earlier | ⟨-, added⟩
  · exact collected logIdx record earlier
  · exact Nat.lt_of_lt_of_le behind added

/-- Neither do marked records when the collection starts over. -/
theorem SlotView.Collected.markUsing
    {slotView : SlotView}
    (collected : slotView.Collected) :
    SlotView.Collected { slots := slotView.slots.markUsing, gcUpTo := 0 } := by
  intro logIdx record held
  rw [lookup_markUsing] at held
  obtain ⟨old, found, -⟩ := Option.map_eq_some_iff.mp held
  exact Nat.zero_lt_of_lt (collected logIdx old found)

/-- A section that is none of the three leaves the records alone. -/
theorem Process.step_quiet_slots
    {proc : Process}
    {outcomes : IoOutcomes}
    {act : Act}
    {result : Process × Outputs}
    (quiet : proc.Quiet act)
    (stepped : proc.step outcomes act = some result)
    (noRestart : ∀ kernel cacheLost, act ≠ .restart kernel cacheLost) :
    result.1.server.slotView = proc.server.slotView := by
  have spec :
      proc.BodySpec outcomes act
        (fun final => final.slotView = proc.server.slotView)
        fun final => final.slotView = proc.server.slotView :=
    (body_frames slotView_unaffected quiet).ends _
  rcases Process.step_ends spec stepped noRestart with
    unchanged | returned | ⟨threw, -⟩
  · rw [unchanged]
  · exact returned
  · exact threw

section

variable {proc : Process} {input : Input} {result : Process × Outputs}
variable (ready : proc.GcReady)
variable (stays : input.act.isRestart = false)
variable (stepped : proc.step input.outcomes input.act = some result)

include ready stays stepped

theorem Process.GcReady.running :
    0 < proc.server.ring.tailLogIndex ∧ proc.server.view.log ≠ [] := by
  have running :=
    Process.running_of_step stepped (Act.not_restart stays)
  exact ⟨ready.started running, ready.wellformed.sentinel running⟩

theorem Process.GcReady.slotStep :
    proc.server.SlotStep result.1.server :=
  Process.step_slotStep (ready.running stays stepped).2 stepped
    (Act.not_restart stays)

/-- No record falls behind. -/
theorem Process.GcReady.step_collected :
    result.1.server.slotView.Collected := by
  have started := (ready.running stays stepped).1
  cases ready.slotStep stays stepped with
  | kept same =>
      rw [same]
      exact ready.collected
  | elected gained =>
      exact ready.collected.markUsing.gains started gained
  | appended leader gained =>
      exact ready.collected.gains (ready.behind leader) gained
  | collected leader _ slots =>
      intro logIdx record held
      have kept := ready.collected.scanned_eq proc.server.minMatch logIdx
      rw [slots] at held ⊢
      rw [SlotMap.scanned] at kept
      by_contra behind
      rw [if_neg behind] at kept
      exact Option.some_ne_none record (held.symm.trans kept)

/-- What a leader has collected by the end of a step was below its tail. -/
theorem Process.GcReady.step_gcUpTo
    (leader : proc.server.raft.state = .leader) :
    result.1.server.ring.gcUpTo < proc.server.ring.tailLogIndex := by
  have started := (ready.running stays stepped).1
  have behind := ready.behind leader
  cases ready.slotStep stays stepped with
  | kept same =>
      have upTo : result.1.server.ring.gcUpTo = proc.server.ring.gcUpTo :=
        congrArg SlotView.gcUpTo same
      exact upTo ▸ behind
  | elected gained =>
      have upTo : result.1.server.ring.gcUpTo = 0 := gained.gcUpTo
      exact upTo ▸ started
  | appended _ gained =>
      have upTo : result.1.server.ring.gcUpTo = proc.server.ring.gcUpTo :=
        gained.gcUpTo
      exact upTo ▸ behind
  | collected _ _ slots =>
      have upTo : result.1.server.ring.gcUpTo = proc.server.minMatch :=
        congrArg SlotView.gcUpTo slots
      have bound : proc.server.minMatch ≤ proc.server.ring.tailLogIndex - 1 :=
        minMatch_le proc.server
      omega

/-- A running process keeps an index in its log. -/
theorem Process.GcReady.step_started :
    0 < result.1.server.ring.tailLogIndex := by
  have started : 0 < proc.node.view.tail := (ready.running stays stepped).1
  have does := Process.step_does ready.wellformed stepped
  refine Node.Step.tail_above does started stays ?_
  intro index src pending _ found _
  have reaches : pending.skipEntries < pending.req.numEntries :=
    ready.reach _ _ (List.mem_of_getElem? found)
  omega

/-- What a leader has collected is below its tail. -/
theorem Process.GcReady.step_behind
    (inLog : gcStaysBehind proc input = true)
    (leader : result.1.server.raft.state = .leader) :
    result.1.server.ring.gcUpTo < result.1.server.ring.tailLogIndex := by
  have noRestart := Act.not_restart stays
  have does := Process.step_does ready.wellformed stepped
  rcases Node.Step.leads_or_wins does noRestart leader with
    ⟨leads, -⟩ | ⟨wins, -⟩
  · have leads : proc.server.raft.state = .leader := leads
    have below := ready.step_gcUpTo stays stepped leads
    refine Node.Step.tail_above does below stays ?_
    intro index src pending finishes found whole
    have quiet : proc.Quiet input.act := by
      rw [finishes]
      trivial
    have same : result.1.server.ring.gcUpTo = proc.server.ring.gcUpTo :=
      congrArg SlotView.gcUpTo
        (Process.step_quiet_slots quiet stepped noRestart)
    have found : proc.threads[index]? = some (.appendHandler src pending) :=
      found
    simp only [gcStaysBehind, finishes, found, decide_eq_true_eq] at inLog
    rw [same]
    exact inLog leads whole
  · have elected := Process.step_elects (ready.running stays stepped).2
      stepped wins
    have upTo : result.1.server.ring.gcUpTo = 0 := elected.gcUpTo
    rw [upTo]
    exact ready.step_started stays stepped

end

/-- A process that has just been started has no records. -/
theorem Process.gcReady_of_started
    {proc : Process}
    (wellformed : proc.Wellformed)
    (reach : proc.node.HandlersReach)
    (empty : proc.server.slotView = ⟨∅, 0⟩)
    (started : proc.halted = false → 0 < proc.server.ring.tailLogIndex)
    (follower : proc.server.raft.state = .follower) :
    proc.GcReady where
  wellformed := wellformed
  reach := reach
  started := started
  collected := by
    intro logIdx record held
    rw [empty, AList.lookup_empty] at held
    cases held
  behind := by
    intro leader
    rw [follower] at leader
    cases leader

theorem Process.GcReady.step
    {proc next : Process}
    {input : Input}
    (ready : proc.GcReady)
    (inLog : gcStaysBehind proc input = true)
    (advanced : proc.advance input = some next) :
    next.GcReady := by
  obtain ⟨result, stepped, rfl⟩ := Option.map_eq_some_iff.mp advanced
  have wellformed := Process.step_wellformed ready.wellformed stepped
  have does := Process.step_does ready.wellformed stepped
  have reach := Node.Step.handlersReach does ready.reach
  cases stays : input.act.isRestart with
  | false =>
      exact {
        wellformed
        reach
        started := fun _ => ready.step_started stays stepped
        collected := ready.step_collected stays stepped
        behind := ready.step_behind stays stepped inLog }
  | true =>
      cases act : input.act with
      | restart kernel cacheLost =>
          rw [act] at stepped
          have fresh : result.1.node.view.role = .follower ∧
              (result.1.node.halted = false →
                0 < result.1.node.view.tail) := by
            unfold Process.Does at does
            rw [act] at does
            generalize result.1.node = after, result.2 = outputs at does
            cases does with
            | restarted =>
                exact ⟨rfl, fun _ => Nat.one_pos⟩
            | restartThrew =>
                exact ⟨rfl, fun running => by cases running⟩
          have empty : result.1.server.slotView = ⟨∅, 0⟩ := by
            simp only [Process.step, Option.some.injEq] at stepped
            rw [← stepped]
            exact startUp_slots _ _ _
          exact Process.gcReady_of_started wellformed reach empty fresh.2
            fresh.1
      | _ =>
          rw [act] at stays
          cases stays

theorem boot_gcReady
    {n : Nat}
    (members : Membership n)
    (settings : Fin n → Settings)
    (node : Fin n) :
    (members.boot settings node).GcReady := by
  obtain ⟨halted, fresh⟩ := boot_node members settings node
  have role : (members.boot settings node).node.view.role = .follower := by
    rw [fresh]
    cases halted <;> rfl
  refine Process.gcReady_of_started (boot_wellformed members settings node)
    ?_ (startUp_slots _ _ _)
    (boot_rooted members settings node).rooted.started role
  intro src pending held
  rw [fresh] at held
  cases held

/--
What the leader's incremental collection promises: it keeps what a scan of the
whole map keeps, and the fast test skips only indices without a record.
-/
structure Process.CollectsFully (proc : Process) : Prop where
  scans :
    ∀ (input : Input) (after : Process),
      input.act = .slotGc →
      proc.server.raft.state = .leader →
      proc.advance input = some after →
      ∃ minMatch,
        IsLeast proc.server.matchBounds minMatch ∧
          ∀ logIdx,
            after.server.ring.logSlotMap.lookup logIdx =
              proc.server.ring.logSlotMap.scanned minMatch logIdx
  skips :
    ∀ next : Nat,
      proc.server.ring.gcHasRun = true →
      next ≤ proc.server.ring.gcUpTo →
      proc.server.ring.logSlotMap.lookup next = none

theorem Process.GcReady.collectsFully
    {proc : Process}
    (ready : proc.GcReady) :
    proc.CollectsFully where
  scans := by
    intro input after act leader advanced
    obtain ⟨result, stepped, rfl⟩ := Option.map_eq_some_iff.mp advanced
    rw [act] at stepped
    have slots :=
      @collectGarbage_slots (proc.server.withOutcomes input.outcomes) leader
    rw [← Process.step_slotGc stepped] at slots
    refine ⟨proc.server.minMatch, minMatch_isLeast proc.server,
      fun logIdx => ?_⟩
    show result.1.server.slotView.slots.lookup logIdx = _
    rw [slots]
    exact ready.collected.scanned_eq proc.server.minMatch logIdx
  skips := by
    intro next _ collected
    cases held : proc.server.ring.logSlotMap.lookup next with
    | none =>
        rfl
    | some record =>
        exact absurd (ready.collected next record held)
          (Nat.not_lt.mpr collected)

/--
Incremental collection: as long as no append handler that finishes moves the
tail of a leader back to what the leader has collected, `do_slot_gc` leaves
exactly the records above `min_match`, and the fast test of the append worker
skips no index that has a record, in every state of every run.
-/
theorem slot_gc_is_full_scan
    {n : Nat}
    {members : Membership n}
    {settings : Fin n → Settings}
    {node : Fin n}
    {inputs : List Input}
    {proc : Process}
    (run :
      runWhile gcStaysBehind Process.advance (members.boot settings node)
        inputs = some proc) :
    proc.CollectsFully :=
  Process.GcReady.collectsFully
    (runWhile_invariant Process.GcReady
      (fun _ _ _ ready inLog advanced => ready.step inLog advanced)
      (boot_gcReady members settings node) run)

/--
A handler of term 1 copies while the node wins term 2, appends two commands,
has them matched by both peers and collects them.
-/
def collectingLead : List Input :=
  [{ act := .handleAppend 1 firstEntryRequest },
   { act := mainAct false }, { act := mainAct true }, { act := mainAct false },
   { act := .voteSend 1 },
   { act := .voteReply 1 { term := 2, voteGranted := true } },
   { act := .voteSend 1 }, { act := .voteDrop 1 },
   { act := mainAct false }, { act := mainAct false }, { act := mainAct false },
   { act := mainAct false },
   { act := .apply 0 [[1], [2]] }, { act := .applySpawn 1 },
   { act := .appendSend 1 },
   { act := .appendReply 1 { term := 2, success := true } },
   { act := .appendSend 1 },
   { act := .appendReply 1 { term := 2, success := true } },
   { act := .slotGc }]

/-- The leader has collected the entries both peers have. -/
theorem collecting_lead_is_full_scan :
    ∃ proc,
      runWhile gcStaysBehind Process.advance firstNode collectingLead =
          some proc ∧
        proc.server.raft.state = .leader ∧
          proc.server.ring.gcUpTo = 3 ∧
            proc.CollectsFully := by
  obtain ⟨proc, run, passes⟩ :
      ∃ proc,
        runWhile gcStaysBehind Process.advance firstNode collectingLead =
            some proc ∧
          (decide (proc.server.raft.state = .leader) &&
            decide (proc.server.ring.gcUpTo = 3)) = true :=
    runWhile_exists (by decide +kernel)
  obtain ⟨leader, upTo⟩ := Bool.and_eq_true_iff.mp passes
  exact ⟨proc, run, of_decide_eq_true leader, of_decide_eq_true upTo,
    slot_gc_is_full_scan run⟩

/-- Collection is complete in every run without a restart. -/
def AlwaysCollectsFully (start : Process) : Prop :=
  ∀ inputs proc,
    runWhile (fun _ input => !input.act.isRestart) Process.advance start
        inputs = some proc →
    proc.CollectsFully

/--
The handler moves the tail back to 2, and the next command gets index 2: its
record is there, but the fast test skips it.
-/
theorem late_handler_hides_entry :
    ¬ AlwaysCollectsFully firstNode := by
  intro collects
  obtain ⟨proc, run, passes⟩ :
      ∃ proc,
        runWhile (fun _ input => !input.act.isRestart) Process.advance
            firstNode
            (collectingLead ++
              [{ act := .handleAppendFinish 0 true },
               { act := .apply 0 [[3]] }]) = some proc ∧
          (proc.server.ring.gcHasRun &&
            decide (2 ≤ proc.server.ring.gcUpTo) &&
              (proc.server.ring.logSlotMap.lookup 2).isSome) = true :=
    runWhile_exists (by decide +kernel)
  obtain ⟨collected, held⟩ := Bool.and_eq_true_iff.mp passes
  obtain ⟨hasRun, upTo⟩ := Bool.and_eq_true_iff.mp collected
  have skipped := (collects _ _ run).skips 2 hasRun (of_decide_eq_true upTo)
  rw [skipped] at held
  cases held

end NvmeofRaft
