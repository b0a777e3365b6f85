import NvmeofRaft.Authenticity
import NvmeofRaft.DurableRuns
import NvmeofRaft.FastBackoff
import NvmeofRaft.FullLog
import NvmeofRaft.SlotGc

namespace NvmeofRaft

/-!
# The entry in front of a request

The leader trims its log up to the match indices of one leadership, and a new
leadership forgets them.  `prev_log_index` stays in memory as long as no booked
answer leads the next index back in front of the oldest entry; only the match
index keeps `apply_ae_failure_backoff` from doing so.
-/

/-- The index is in front of the log, or its entry is in memory. -/
def View.Keeps
    (view : View)
    (logIdx : Nat) : Prop :=
  logIdx = 0 ∨ view.oldest ≤ logIdx

instance
    (view : View)
    (logIdx : Nat) :
    Decidable (view.Keeps logIdx) :=
  inferInstanceAs (Decidable (_ ∨ _))

/-- The previous index and the match index of every other member are kept. -/
def View.PrevsKept (view : View) : Prop :=
  ∀ fi : Nat,
    fi ≠ view.index →
    view.Keeps (view.nexts.getD fi 0 - 1) ∧
      view.Keeps (view.matched.getD fi 0)

/--
The entry in memory at which the search for a conflicting term stops: it has
that term, and those behind it, up to `prev`, have higher ones.
-/
def View.ConflictAt
    (view : View)
    (prev conflictTerm logIdx : Nat) : Prop :=
  0 < logIdx ∧ view.oldest ≤ logIdx ∧ view.termAt logIdx = conflictTerm ∧
    ∀ later ≤ prev, logIdx < later → conflictTerm < view.termAt later

instance
    (view : View)
    (prev conflictTerm logIdx : Nat) :
    Decidable (view.ConflictAt prev conflictTerm logIdx) :=
  inferInstanceAs (Decidable (_ ∧ _ ∧ _ ∧ _))

/-- The own log decides where the search ends, and not the hint. -/
def View.FindsConflict
    (view : View)
    (prev conflictTerm : Nat) : Prop :=
  conflictTerm ≠ 0 ∧
    ∃ logIdx < prev, view.ConflictAt prev conflictTerm logIdx

instance
    (view : View)
    (prev conflictTerm : Nat) :
    Decidable (view.FindsConflict prev conflictTerm) :=
  inferInstanceAs (Decidable (_ ∧ _))

/--
The next index that a rejection names otherwise: the hint, or the index in front
of the current one when there is no hint below it.
-/
def View.rejectedTo
    (view : View)
    (next : Nat)
    (rsp : AppendEntriesResponse) :
    Nat :=
  if (rsp.conflictTerm = 0 ∧ rsp.conflictIndex = 0) ∨
      next ≤ rsp.conflictIndex ∨
      (rsp.conflictTerm ≠ 0 ∧
        view.ConflictAt (next - 1) rsp.conflictTerm (next - 1)) then
    next - 1
  else
    rsp.conflictIndex

/--
The answer to a call does not lead a leader's next index in front of the log in
memory: a batch that succeeds ends in it, and a rejection that is not stale is
stopped by the match index, or finds its term, or names a kept index.
-/
def View.AnswerKept
    (view : View)
    (fi : Nat)
    (call : AppendCall)
    (rsp : AppendEntriesResponse) : Prop :=
  (rsp.success = true →
    call.next + call.lenEntries ≤ view.nexts.getD fi 0 ∨
      view.Keeps (call.next + call.lenEntries - 1)) ∧
  (rsp.success = false →
    view.nexts.getD fi 0 = call.next →
    view.oldest ≤ view.matched.getD fi 0 ∨
      view.FindsConflict (call.next - 1) rsp.conflictTerm ∨
        view.Keeps (view.rejectedTo call.next rsp - 1))

instance
    (view : View)
    (fi : Nat)
    (call : AppendCall)
    (rsp : AppendEntriesResponse) :
    Decidable (view.AnswerKept fi call rsp) :=
  inferInstanceAs (Decidable ((_ → _) ∧ (_ → _ → _)))

section

variable {server : Server} {conflictTerm conflictIndex : Nat}

/-- The search ends at the hint or behind the entry it stops at. -/
theorem conflictNext_cases :
    ∀ prev,
      conflictNext server server.oldestLogIndex conflictTerm conflictIndex
          prev = conflictIndex ∨
        ∃ logIdx ≤ prev,
          server.view.ConflictAt prev conflictTerm logIdx ∧
            conflictNext server server.oldestLogIndex conflictTerm
              conflictIndex prev = logIdx + 1 := by
  intro prev
  induction prev with
  | zero =>
      exact Or.inl rfl
  | succ prev inductionHypothesis =>
      rw [conflictNext]
      simp only [logAt_term, oldestLogIndex_eq] at inductionHypothesis ⊢
      split_ifs with trimmed same stops
      · exact Or.inl rfl
      · refine Or.inr ⟨prev + 1, le_refl _,
          ⟨Nat.succ_pos _, Nat.not_lt.mp trimmed, same, ?_⟩, rfl⟩
        intro later upTo behind
        omega
      · exact Or.inl rfl
      · rcases inductionHypothesis with
          hint | ⟨logIdx, upTo, ⟨positive, held, term, above⟩, found⟩
        · exact Or.inl hint
        · refine Or.inr ⟨logIdx, Nat.le_succ_of_le upTo,
            ⟨positive, held, term, ?_⟩, found⟩
          intro later within behind
          rcases Nat.eq_or_lt_of_le within with rfl | before
          · omega
          · exact above later (Nat.le_of_lt_succ before) behind

/-- The search ends where it is said to stop. -/
theorem conflictNext_of_conflictAt
    {logIdx : Nat} :
    ∀ {prev},
      logIdx ≤ prev →
      server.view.ConflictAt prev conflictTerm logIdx →
      conflictNext server server.oldestLogIndex conflictTerm conflictIndex
        prev = logIdx + 1 := by
  intro prev
  induction prev with
  | zero =>
      rintro upTo ⟨positive, -⟩
      omega
  | succ prev inductionHypothesis =>
      rintro upTo ⟨positive, held, same, above⟩
      rw [conflictNext]
      simp only [logAt_term, oldestLogIndex_eq]
      rw [if_neg (Nat.not_lt.mpr (held.trans upTo))]
      rcases Nat.eq_or_lt_of_le upTo with here | before
      · subst here
        rw [if_pos same]
      · have higher := above (prev + 1) (le_refl _) before
        have later := inductionHypothesis (Nat.le_of_lt_succ before)
          ⟨positive, held, same, fun index upTo =>
            above index (Nat.le_succ_of_le upTo)⟩
        rw [oldestLogIndex_eq] at later
        rw [if_neg (Nat.ne_of_gt higher), if_neg (by omega)]
        exact later

/-- The suggested next index, when the hints say which one is suggested. -/
theorem backoffNext_of_suggested
    {next prev suggested : Nat}
    {rsp : AppendEntriesResponse}
    (suggests :
      (if rsp.conflictTerm = 0 ∧ rsp.conflictIndex = 0 then
          sub64 next 1
        else if rsp.conflictTerm = 0 then
          rsp.conflictIndex
        else
          conflictNext server server.oldestLogIndex rsp.conflictTerm
            rsp.conflictIndex prev) = suggested) :
    server.backoffNext next prev rsp =
      if next ≤ suggested then next - 1 else suggested := by
  subst suggests
  rfl

/-- A rejection that is kept suggests a kept index, unless the match stops it. -/
theorem View.AnswerKept.backoffNext
    {fi : Nat}
    {call : AppendCall}
    {rsp : AppendEntriesResponse}
    (answer : server.view.AnswerKept fi call rsp)
    (failure : rsp.success = false)
    (isNext : server.view.nexts.getD fi 0 = call.next)
    (behind : ¬ server.view.oldest ≤ server.view.matched.getD fi 0) :
    server.view.Keeps
      (server.backoffNext call.next (call.next - 1) rsp - 1) := by
  have kept := (answer.2 failure isNext).resolve_left behind
  by_cases noTerm : rsp.conflictTerm = 0
  · have named := kept.resolve_left fun finds => finds.1 noTerm
    rw [View.rejectedTo] at named
    by_cases noIndex : rsp.conflictIndex = 0
    · rw [if_pos (Or.inl ⟨noTerm, noIndex⟩)] at named
      rw [backoffNext_of_suggested (if_pos ⟨noTerm, noIndex⟩)]
      by_cases started : call.next = 0
      · rw [if_pos (started ▸ Nat.zero_le _)]
        exact named
      · rw [sub64_of_le (Nat.pos_of_ne_zero started), if_neg (by omega)]
        exact named
    · rw [backoffNext_of_suggested
        ((if_neg fun none => noIndex none.2).trans (if_pos noTerm))]
      simp only [noTerm, noIndex, and_false, ne_eq, not_true, false_and,
        or_false, false_or] at named
      exact named
  · have suggests :=
      @backoffNext_of_suggested server call.next (call.next - 1) _ rsp
        ((if_neg fun none => noTerm none.1).trans (if_neg noTerm))
    rw [suggests]
    rcases kept with ⟨-, logIdx, before, stops⟩ | named
    · rw [conflictNext_of_conflictAt (Nat.le_of_lt before) stops,
        if_neg (by omega)]
      exact Or.inr stops.2.1
    · rw [View.rejectedTo] at named
      by_cases here :
          server.view.ConflictAt (call.next - 1) rsp.conflictTerm
            (call.next - 1)
      · rw [if_pos (Or.inr (Or.inr ⟨noTerm, here⟩))] at named
        have positive := here.1
        rw [conflictNext_of_conflictAt (le_refl _) here, if_pos (by omega)]
        exact named
      · simp only [noTerm, here, false_and, and_false, or_false, false_or]
          at named
        rcases @conflictNext_cases server rsp.conflictTerm rsp.conflictIndex
          (call.next - 1) with hint | ⟨logIdx, upTo, stops, found⟩
        · rw [hint]
          exact named
        · have before : logIdx ≠ call.next - 1 := by
            rintro rfl
            exact here stops
          rw [found, if_neg (by omega)]
          exact Or.inr stops.2.1

end

/-- A changed list holds the new value at the index, if it has the index. -/
theorem getD_set_of
    {holds : Nat → Prop}
    {list : List Nat}
    {index value position : Nat}
    (before : holds (list.getD position 0))
    (new : index = position → holds value) :
    holds ((list.set index value).getD position 0) := by
  simp only [List.getD_eq_getElem?_getD, List.getElem?_set] at before ⊢
  split_ifs with same inside
  · exact new same
  · subst same
    rwa [List.getElem?_eq_none_iff.mpr (Nat.not_lt.mp inside)] at before
  · exact before

section

variable {view : View}

/-- One member gets new kept indices, the others keep theirs. -/
theorem View.PrevsKept.setMember
    (kept : view.PrevsKept)
    {fi next matchIndex : Nat}
    (member :
      fi ≠ view.index → view.Keeps (next - 1) ∧ view.Keeps matchIndex) :
    { view with
      nexts := view.nexts.set fi next
      matched := view.matched.set fi matchIndex }.PrevsKept := by
  intro position other
  obtain ⟨nextKept, matchKept⟩ := kept position other
  have nexts : view.Keeps ((view.nexts.set fi next).getD position 0 - 1) :=
    @getD_set_of (fun value => view.Keeps (value - 1)) _ _ _ _ nextKept
      fun same => (member (same ▸ other)).1
  have matched : view.Keeps ((view.matched.set fi matchIndex).getD position 0) :=
    getD_set_of matchKept fun same => (member (same ▸ other)).2
  exact ⟨nexts, matched⟩

/-- A batch that is booked ends in front of the log or in memory. -/
theorem View.PrevsKept.succeeded
    (kept : view.PrevsKept)
    {fi batchEnd : Nat}
    (ends : batchEnd ≤ view.nexts.getD fi 0 ∨ view.Keeps (batchEnd - 1)) :
    { view with
      nexts := view.nexts.modify fi fun next => max next (max batchEnd 1)
      matched := view.matched.set fi
        (max (view.nexts.getD fi 0) (max batchEnd 1) - 1) }.PrevsKept := by
  rw [modify_eq_set_getD]
  refine kept.setMember fun other => ?_
  have before := (kept fi other).1
  have after :
      view.Keeps (max (view.nexts.getD fi 0) (max batchEnd 1) - 1) := by
    unfold View.Keeps at ends before ⊢
    omega
  exact ⟨after, after⟩

/-- A rejection that is booked steps back to a kept index. -/
theorem View.PrevsKept.rejected
    (kept : view.PrevsKept)
    {fi suggested : Nat}
    (named :
      ¬ view.oldest ≤ view.matched.getD fi 0 →
      view.Keeps (suggested - 1)) :
    { view with
      nexts := view.nexts.set fi
        (max (max suggested 1) (view.matched.getD fi 0 + 1)) }.PrevsKept := by
  have changed := @View.PrevsKept.setMember view kept fi
    (max (max suggested 1) (view.matched.getD fi 0 + 1))
    (view.matched.getD fi 0) fun other => by
      have before := (kept fi other).2
      refine ⟨?_, before⟩
      unfold View.Keeps at before named ⊢
      omega
  rw [set_getD_self] at changed
  exact changed

end

/-- Booking an answer that is kept keeps the previous indices. -/
theorem View.PrevsKept.bookAnswer
    {server : Server}
    {fi : Nat}
    {call : AppendCall}
    {rsp : AppendEntriesResponse}
    (kept : server.view.PrevsKept)
    (leader : server.view.role = .leader)
    (fromNext : call.req.prevLogIndex = call.next - 1)
    (answer :
      rsp.term ≤ server.view.term →
      rsp.term = call.req.term →
      server.view.AnswerKept fi call rsp) :
    (server.bookAnswer fi call (some rsp)).view.PrevsKept := by
  unfold Server.bookAnswer
  generalize landed :
    (if call.hasEntries then server.setInflight fi false else server) = booked
  have same : booked.view = server.view := by
    rw [← landed]
    split
    · exact setInflight_view server fi false
    · rfl
  rw [← same] at kept leader answer
  dsimp only
  split_ifs with higher other success
  · exact kept
  · exact kept
  · have lower : rsp.term ≤ booked.view.term := Nat.not_lt.mp higher
    have sameTerm : rsp.term = call.req.term :=
      by_contra fun differs => other ⟨differs, leader⟩
    rw [applyAeSuccess_view]
    exact kept.succeeded ((answer lower sameTerm).1 success)
  · have lower : rsp.term ≤ booked.view.term := Nat.not_lt.mp higher
    have sameTerm : rsp.term = call.req.term :=
      by_contra fun differs => other ⟨differs, leader⟩
    have failure : rsp.success = false := by simpa using success
    rw [applyAeFailureBackoff_next, fromNext]
    split_ifs with stale
    · rw [set_getD_self]
      exact kept
    · have isNext : booked.view.nexts.getD fi 0 = call.next := by
        simpa using stale
      rw [isNext]
      exact kept.rejected fun behind =>
        (answer lower sameTerm).backoffNext failure isNext behind

/-- The previous index of a request is in front of its first entry. -/
def Node.CallsFromNext (node : Node) : Prop :=
  ∀ thread ∈ node.threads, ∀ fi call,
    thread.call? = some (fi, call) →
    call.req.prevLogIndex = call.next - 1

/-- Append workers are for the other members. -/
def Node.WorkersForPeers (node : Node) : Prop :=
  ∀ fi, .appendWorker fi ∈ node.threads → fi ≠ node.view.index

section

variable {mapped : Nat → Prop} {node after : Node} {act : Act}
variable {outputs : Outputs}

theorem Node.Step.callsFromNext
    (step : node.Step mapped act after outputs)
    (fromNext : node.CallsFromNext) :
    after.CallsFromNext := by
  intro thread held fi call calls
  rcases step.thread_origin held with old | new
  · exact fromNext thread old fi call calls
  · cases new with
    | leaderCopy _ built _ _ =>
        cases calls
        exact built.prevLogIndex
    | appendCall _ built _ _ =>
        cases calls
        exact built.prevLogIndex
    | copiedCall copying =>
        cases calls
        have before := fromNext _ copying _ _ rfl
        exact before
    | _ => cases calls

theorem Node.Step.workersForPeers
    (step : node.Step mapped act after outputs)
    (sameIndex : after.view.index = node.view.index)
    (workers : node.WorkersForPeers) :
    after.WorkersForPeers := by
  intro fi held
  rw [sameIndex]
  rcases step.thread_origin held with old | new
  · exact workers fi old
  · cases new with
    | heartbeatWorker peer _ =>
        exact View.ne_of_mem_peers peer
    | commandWorker peer _ =>
        exact View.ne_of_mem_peers peer

/-- A handler that finds the tail where it left it does not move it back. -/
theorem Node.tailKept_of_tailUnmoved
    (reach : node.HandlersReach)
    (unmoved : node.tailUnmoved act = true) :
    node.tailKept act = true := by
  unfold Node.tailKept
  split
  · split
    · rename_i index src pending found
      have fits := Node.fits_of_tailUnmoved unmoved found
      have reaches : pending.skipEntries < pending.req.numEntries :=
        reach _ _ (List.mem_of_getElem? found)
      rw [decide_eq_true_eq]
      intro whole
      have tail := fits whole
      omega
    · rfl
  · rfl

end

/-- The member lists are the same and so is the oldest index. -/
theorem View.PrevsKept.same
    {view after : View}
    (kept : view.PrevsKept)
    (progress : view.SameProgress after)
    (index : after.index = view.index)
    (oldest : after.oldest = view.oldest) :
    after.PrevsKept := by
  intro fi other
  rw [index] at other
  rw [progress.nexts, progress.matched]
  unfold View.Keeps
  rw [oldest]
  exact kept fi other

/-- Trimming up to the lowest match of the peers keeps their indices. -/
theorem View.PrevsKept.trimmed
    {view after : View}
    (tracks : view.Tracks)
    (progress : view.SameProgress after)
    (index : after.index = view.index)
    (matched :
      ∀ fi matchIndex : Nat,
        fi ≠ view.index →
        view.matched[fi]? = some matchIndex →
        after.oldest ≤ matchIndex) :
    after.PrevsKept := by
  intro fi other
  rw [index] at other
  rw [progress.nexts, progress.matched]
  simp only [List.getD_eq_getElem?_getD]
  cases held : view.nexts[fi]? with
  | none =>
      have outside := List.getElem?_eq_none_iff.mp held
      rw [tracks.aligned] at outside
      rw [List.getElem?_eq_none_iff.mpr outside]
      exact ⟨Or.inl rfl, Or.inl rfl⟩
  | some next =>
      have inside := (List.getElem?_eq_some_iff.mp held).1
      have matchHeld := List.getElem?_eq_getElem (tracks.aligned ▸ inside)
      have fits := tracks.fits fi next _ held matchHeld
      have bound := matched fi _ other matchHeld
      rw [matchHeld]
      refine ⟨Or.inr ?_, Or.inr bound⟩
      show after.oldest ≤ next - 1
      omega

theorem oldest_entryView
    (server : Server) :
    server.entryView.oldest = server.view.oldest := by
  simp [EntryView.oldest, View.oldest, Server.entryView, Server.view]

/-- A collection moves the oldest index up to the lowest match at most. -/
theorem collectGarbage_oldest
    {server : Server}
    (covered : server.entryView.Covered) :
    server.collectGarbage.view.oldest = server.view.oldest ∨
      server.collectGarbage.view.oldest ≤ server.minMatch := by
  rw [← oldest_entryView, ← oldest_entryView]
  rcases collectGarbage_trims server with
    same | ⟨removed, fits, below, trimmed⟩
  · rw [same]
    exact Or.inl rfl
  · rw [trimmed, covered.trim_oldest fits]
    exact Or.inr (below.trans (min_le_left _ _))

/-- The lowest match is a lower bound of the peers' matches. -/
theorem minMatch_le_matched
    {server : Server}
    {fi matchIndex : Nat}
    (other : fi ≠ server.view.index)
    (held : server.view.matched[fi]? = some matchIndex) :
    server.minMatch ≤ matchIndex := by
  simp only [Server.view, List.getElem?_map] at held
  obtain ⟨member, found, rfl⟩ := Option.map_eq_some_iff.mp held
  exact (minMatch_isLeast server).2 (Or.inr ⟨fi, member, other, found, rfl⟩)

/-- A new leader begins behind its last entry, which is in memory. -/
theorem View.Holds.prevsKept_of_reset
    {view : View}
    {full : List Nat}
    (holds : view.Holds full)
    (applied : Nat) :
    (view.promoted applied).resetProgress.PrevsKept := by
  have grown : view.Grown (view.promoted applied).resetProgress :=
    ⟨[view.term], rfl, rfl⟩
  have oldest := grown.oldest holds.sentinel holds.covered
  have last :
      (view.promoted applied).resetProgress.Keeps (view.tail - 1) := by
    unfold View.Keeps
    rw [oldest, holds.tail]
    by_cases empty : full = []
    · rw [empty]
      exact Or.inl rfl
    · exact Or.inr (holds.oldest_le empty)
  have constant :
      ∀ (list : List Nat) (value fi : Nat),
        (list.map fun _ => value).getD fi 0 = 0 ∨
          (list.map fun _ => value).getD fi 0 = value := by
    intro list value fi
    rw [List.getD_eq_getElem?_getD, List.getElem?_map]
    cases list[fi]? with
    | none => exact Or.inl rfl
    | some old => exact Or.inr rfl
  intro fi _
  have nexts := constant view.nexts view.tail fi
  have matched := constant view.matched 0 fi
  refine ⟨?_, Or.inl (or_self_iff.mp matched)⟩
  show View.Keeps _ ((view.nexts.map fun _ => view.tail).getD fi 0 - 1)
  rcases nexts with zero | next
  · rw [zero]
    exact Or.inl rfl
  · rw [next]
    exact last

/-- The booking section of a call that waits for its answer. -/
theorem Process.step_appendReply
    {proc : Process}
    {outcomes : IoOutcomes}
    {index fi : Nat}
    {call : AppendCall}
    {rsp : AppendEntriesResponse}
    {result : Process × Outputs}
    (found : proc.threads[index]? = some (.appendCall fi call))
    (stepped : proc.step outcomes (.appendReply index rsp) = some result) :
    result.1.server =
      (proc.server.withOutcomes outcomes).bookAnswer fi call (some rsp) := by
  simp only [Process.step] at stepped
  split at stepped
  · cases stepped
  · simp only [Act.thread?, Option.bind_some, found, Process.stepThread]
      at stepped
    cases stepped
    rfl

/--
An answer that reaches a leader's worker and is booked does not lead the next
index in front of the log in memory.
-/
def answersKept
    (proc : Process)
    (input : Input) :
    Bool :=
  match input.act with
  | .appendReply index rsp =>
      match proc.threads[index]? with
      | some (.appendCall fi call) =>
          decide (proc.server.raft.state = .leader →
            rsp.term ≤ proc.server.raft.currentTerm →
            rsp.term = call.req.term →
            proc.server.view.AnswerKept fi call rsp)
      | _ => true
  | _ => true

/-- Handlers find the tail where they left it, and answers are kept. -/
def prevsKeptAlong
    (proc : Process)
    (input : Input) :
    Bool :=
  proc.node.tailUnmoved input.act && answersKept proc input

/-- What a leader's next indices rest on. -/
structure Process.PrevsRooted (proc : Process) : Prop where
  rooted : proc.Rooted
  reach : proc.node.HandlersReach
  fromNext : proc.node.CallsFromNext
  workers : proc.node.WorkersForPeers
  holds : proc.halted = false → ∃ full, proc.node.view.Holds full
  leads :
    proc.halted = false →
    proc.server.raft.state = .leader →
    proc.node.view.Tracks ∧ proc.node.view.PrevsKept

section

variable {proc : Process} {outcomes : IoOutcomes} {act : Act}
variable {result : Process × Outputs} {full : List Nat}
variable (prevs : proc.PrevsRooted)
variable (holds : proc.node.view.Holds full)
variable (stays : act.isRestart = false)
variable (stepped : proc.step outcomes act = some result)

include prevs holds

/-- A collection keeps the previous indices of the other members. -/
theorem Process.PrevsRooted.collected
    (tracks : proc.node.view.Tracks)
    (kept : proc.node.view.PrevsKept)
    (stepped : proc.step outcomes .slotGc = some result) :
    result.1.node.view.PrevsKept := by
  have does := Process.step_does prevs.rooted.wellformed stepped
  have index : result.1.node.view.index = proc.node.view.index :=
    (Process.step_identity stepped).2.1
  have covered : (proc.server.withOutcomes outcomes).entryView.Covered := by
    have sentinel := holds.sentinel
    have bound := holds.covered
    simp only [Process.node, Server.view, List.length_map] at sentinel bound
    exact ⟨sentinel, Nat.le_succ_of_le bound⟩
  have progress : proc.node.view.SameProgress result.1.node.view := by
    cases Node.Step.progressEffect does rfl with
    | kept same => exact same
  have oldest := collectGarbage_oldest covered
  rw [← Process.step_slotGc stepped] at oldest
  rcases oldest with same | below
  · exact kept.same progress index same
  · refine View.PrevsKept.trimmed tracks progress index ?_
    intro fi matchIndex other held
    exact below.trans (minMatch_le_matched other held)

include stays stepped

/-- A step of a leader that goes on leading keeps the previous indices. -/
theorem Process.PrevsRooted.leaderStep
    (allowed : prevsKeptAlong proc { outcomes, act } = true)
    (leader : proc.server.raft.state = .leader)
    (tracks : proc.node.view.Tracks)
    (kept : proc.node.view.PrevsKept) :
    result.1.node.view.PrevsKept := by
  obtain ⟨unmoved, answers⟩ := Bool.and_eq_true_iff.mp allowed
  have does := Process.step_does prevs.rooted.wellformed stepped
  have index : result.1.node.view.index = proc.node.view.index :=
    (Process.step_identity stepped).2.1
  have started : 0 < proc.node.view.tail := by
    rw [holds.tail]
    exact Nat.succ_pos _
  by_cases collects : act = .slotGc
  · subst collects
    exact prevs.collected holds tracks kept stepped
  have keepsFront : act.keepsFront = true := by
    cases act with
    | slotGc => exact absurd rfl collects
    | restart _ _ => cases stays
    | _ => rfl
  have oldest : result.1.node.view.oldest = proc.node.view.oldest :=
    (Node.Step.grown does started prevs.reach unmoved keepsFront).oldest
      holds.sentinel holds.covered
  cases Node.Step.progressEffect does stays with
  | kept progress =>
      exact kept.same progress index oldest
  | clamped viewed =>
      rw [viewed, tracks.clampNext_eq started]
      exact kept
  | reset _ viewed =>
      rw [viewed]
      exact holds.prevsKept_of_reset _
  | @booked thread fi call rsp _ found _ =>
      have found : proc.threads[thread]? = some (.appendCall fi call) := found
      simp only [answersKept, found, decide_eq_true_eq] at answers
      show result.1.server.view.PrevsKept
      rw [Process.step_appendReply found stepped]
      exact View.PrevsKept.bookAnswer kept leader
        (prevs.fromNext _ (List.mem_of_getElem? found) _ _ rfl)
        (answers leader)

/-- What a leader has after a step fits its log and is kept. -/
theorem Process.PrevsRooted.step_leads
    (allowed : prevsKeptAlong proc { outcomes, act } = true)
    (running : result.1.halted = false)
    (leader : result.1.server.raft.state = .leader) :
    result.1.node.view.Tracks ∧ result.1.node.view.PrevsKept := by
  have unmoved := (Bool.and_eq_true_iff.mp allowed).1
  have noRestart := Act.not_restart stays
  have ran := Process.running_of_step stepped noRestart
  have tail := Node.tailKept_of_tailUnmoved prevs.reach unmoved
  have advanced : proc.advance { outcomes, act } = some result.1 :=
    congrArg (Option.map Prod.fst) stepped
  have does := Process.step_does prevs.rooted.wellformed stepped
  rcases Node.Step.leads_or_wins does noRestart leader with
    ⟨leads, -⟩ | ⟨wins, -⟩
  · obtain ⟨tracks, kept⟩ := prevs.leads ran leads
    have along : tailKeptAlong proc { outcomes, act } = true := by
      rw [tailKeptAlong, stays]
      exact Bool.and_eq_true_iff.mpr ⟨tail, rfl⟩
    have tracked : proc.Tracked := ⟨prevs.rooted, tracks⟩
    exact ⟨(tracked.step along advanced).1.tracks,
      prevs.leaderStep holds stays stepped allowed leads tracks kept⟩
  · obtain ⟨-, applied, viewed⟩ := Node.Step.elected does wins running
    refine ⟨(prevs.rooted.elected wins advanced running).tracks, ?_⟩
    rw [viewed]
    exact holds.prevsKept_of_reset applied

end

theorem Process.PrevsRooted.step
    {proc next : Process}
    {input : Input}
    (prevs : proc.PrevsRooted)
    (allowed : prevsKeptAlong proc input = true)
    (advanced : proc.advance input = some next) :
    next.PrevsRooted := by
  have unmoved := (Bool.and_eq_true_iff.mp allowed).1
  have rooted := prevs.rooted.step
    (Node.tailKept_of_tailUnmoved prevs.reach unmoved) advanced
  obtain ⟨result, stepped, rfl⟩ := Option.map_eq_some_iff.mp advanced
  have does := Process.step_does prevs.rooted.wellformed stepped
  have sameIndex : result.1.node.view.index = proc.node.view.index :=
    (Process.step_identity stepped).2.1
  have reach := Node.Step.handlersReach does prevs.reach
  have fromNext := Node.Step.callsFromNext does prevs.fromNext
  have workers := Node.Step.workersForPeers does sameIndex prevs.workers
  cases stays : input.act.isRestart with
  | false =>
      have running := Process.running_of_step stepped (Act.not_restart stays)
      obtain ⟨full, holds⟩ := prevs.holds running
      exact {
        rooted
        reach
        fromNext
        workers
        holds := fun _ =>
          ⟨_, Node.Step.holds does stays holds prevs.reach unmoved⟩
        leads := prevs.step_leads holds stays stepped allowed }
  | true =>
      have started :
          result.1.node.view.role = .follower ∧
            (result.1.node.halted = false →
              result.1.node.view.Holds []) := by
        cases act : input.act with
        | restart kernel cacheLost =>
            unfold Process.Does at does
            rw [act] at does
            generalize result.1.node = after, result.2 = outputs at does
            cases does with
            | restarted =>
                refine ⟨rfl, fun _ => ⟨Nat.one_pos, rfl, ?_, ?_⟩⟩
                · exact List.nil_suffix
                · exact fun nonempty => absurd rfl nonempty
            | restartThrew =>
                exact ⟨rfl, fun running => by cases running⟩
        | _ =>
            rw [act] at stays
            cases stays
      exact {
        rooted
        reach
        fromNext
        workers
        holds := fun running => ⟨[], started.2 running⟩
        leads := fun _ leader => by
          have role : result.1.server.raft.state = .follower := started.1
          rw [role] at leader
          cases leader }

theorem boot_prevsRooted
    {n : Nat}
    (members : Membership n)
    (settings : Fin n → Settings)
    (node : Fin n) :
    (members.boot settings node).PrevsRooted := by
  obtain ⟨halted, fresh⟩ := boot_node members settings node
  have noThread :
      ∀ thread, thread ∉ (members.boot settings node).node.threads := by
    intro thread held
    rw [fresh] at held
    cases held
  refine {
    rooted := boot_rooted members settings node
    reach := fun src pending held => absurd held (noThread _)
    fromNext := fun thread held => absurd held (noThread _)
    workers := fun fi held => absurd held (noThread _)
    holds := fun running => ⟨[], ?_⟩
    leads := fun _ leader => ?_ }
  · have same : (members.boot settings node).halted = halted :=
      congrArg Node.halted fresh
    rw [fresh, ← same, running]
    refine ⟨Nat.one_pos, rfl, List.nil_suffix, ?_⟩
    exact fun nonempty => absurd rfl nonempty
  · have role : (members.boot settings node).node.view.role = .follower := by
      rw [fresh]
      cases halted <;> rfl
    have leads : (members.boot settings node).node.view.role = .leader :=
      leader
    rw [role] at leads
    cases leads

/--
Whenever a worker of a running leader builds a request, the entry in front of
it is index zero, or in memory with the term that the request names.
-/
def Process.BuildsBehindLog (proc : Process) : Prop :=
  ∀ (index fi : Nat) (outcomes : IoOutcomes) (call : AppendCall)
    (after : Server),
    proc.halted = false →
    proc.server.raft.state = .leader →
    proc.threads[index]? = some (.appendWorker fi) →
    (appendEntriesSend fi).run (proc.server.withOutcomes outcomes) =
      .ok (some call) after →
    call.req.prevLogIndex = call.next - 1 ∧
      (call.req.prevLogIndex = 0 ∨
        proc.server.oldestLogIndex ≤ call.req.prevLogIndex ∧
          ∃ entry,
            proc.server.logAt? call.req.prevLogIndex = some entry ∧
              call.req.prevLogTerm = entry.term)

theorem Process.PrevsRooted.builds
    {proc : Process}
    (prevs : proc.PrevsRooted) :
    proc.BuildsBehindLog := by
  intro index fi outcomes call after running leader worker ran
  obtain ⟨full, holds⟩ := prevs.holds running
  obtain ⟨tracks, kept⟩ := prevs.leads running leader
  have other := prevs.workers fi (List.mem_of_getElem? worker)
  have started : 0 < proc.node.view.tail := by
    rw [holds.tail]
    exact Nat.succ_pos _
  have spec := appendEntriesSend_spec fi
    (show (proc.server.withOutcomes outcomes).SlotsPositive from
      prevs.rooted.wellformed.positive)
  unfold wp at spec
  rw [ran] at spec
  have built : (proc.node.view.clampNext fi).Built fi call :=
    (spec.2 call rfl).1
  rw [tracks.clampNext_eq started] at built
  have prev : proc.node.view.Keeps call.req.prevLogIndex := by
    rw [built.prevLogIndex, built.fromNext]
    exact (kept fi other).1
  refine ⟨built.prevLogIndex, ?_⟩
  rcases Nat.eq_zero_or_pos call.req.prevLogIndex with zero | positive
  · exact Or.inl zero
  · have inMemory : proc.server.oldestLogIndex ≤ call.req.prevLogIndex := by
      rw [oldestLogIndex_eq]
      exact prev.resolve_left (Nat.ne_of_gt positive)
    have inLog : call.req.prevLogIndex < proc.node.view.tail := by
      have next := (tracks.getD fi).1
      rw [← built.fromNext] at next
      rw [built.prevLogIndex] at positive ⊢
      omega
    have covered : proc.server.entryView.Covered := by
      have sentinel := holds.sentinel
      have bound := holds.covered
      simp only [Process.node, Server.view, List.length_map]
        at sentinel bound
      exact ⟨sentinel, Nat.le_succ_of_le bound⟩
    refine Or.inr ⟨inMemory, _,
      logAt?_of_covered covered inMemory inLog, ?_⟩
    rw [logAt_term, built.prevLogTerm, built.prevLogIndex]
    rw [oldestLogIndex_eq, built.prevLogIndex] at inMemory
    rw [built.prevLogIndex] at positive inLog
    exact if_pos ⟨by omega, inMemory, inLog⟩

/--
The previous index stays in memory: in every run in which handlers find the
tail where they left it and no answer booked by a leader leads a next index in
front of the log in memory, every request that a leader's worker builds names
index zero or an entry in memory, with its term.  Elections, trims, restarts
and further answers may come in any order.
-/
theorem requests_build_behind_log
    {n : Nat}
    {members : Membership n}
    {settings : Fin n → Settings}
    {node : Fin n}
    {inputs : List Input}
    {proc : Process}
    (run :
      runWhile prevsKeptAlong Process.advance (members.boot settings node)
        inputs = some proc) :
    proc.BuildsBehindLog :=
  Process.PrevsRooted.builds
    (runWhile_invariant Process.PrevsRooted
      (fun _ _ _ prevs allowed advanced => prevs.step allowed advanced)
      (boot_prevsRooted members settings node) run)

/-- The first node of a cluster that trims its logs eagerly. -/
def trimmingNode : Process :=
  threeMembers.boot (fun _ => { smallRing with logTrimThreshold := 1 })
    firstMember

/--
The node leads term 1, has two commands matched by both peers, commits and
applies them and trims the log; it grants the vote of term 2, wins term 3 and
starts a round.
-/
def rewonLead : List Input :=
  firstLead ++
    [{ act := .apply 0 [[1], [2]] }, { act := .applySpawn 0 },
     { act := .appendSend 0 },
     { act := .appendReply 0 { term := 1, success := true } },
     { act := .appendSend 0 },
     { act := .appendReply 0 { term := 1, success := true } },
     { act := mainAct false }, { act := mainAct false },
     { act := mainAct false }, { act := .applyPending }, { act := .slotGc },
     { act := .handleVote 1
         { term := 2, candidateId := 2, lastLogIndex := 3, lastLogTerm := 1 } },
     { act := mainAct false }, { act := mainAct true },
     { act := mainAct false }, { act := .voteSend 0 },
     { act := .voteReply 0 { term := 3, voteGranted := true } },
     { act := .voteSend 0 }, { act := .voteDrop 0 },
     { act := mainAct false }, { act := mainAct false },
     { act := mainAct false }, { act := mainAct false },
     { act := mainAct false }, { act := mainAct true },
     { act := mainAct false }]

/-- The new leader's first round builds on the entry it has kept. -/
theorem regained_lead_builds_behind_log :
    ∃ proc,
      runWhile prevsKeptAlong Process.advance trimmingNode rewonLead =
          some proc ∧
        proc.server.raft.state = .leader ∧
          proc.server.oldestLogIndex = 3 ∧
            proc.threads[0]? = some (Thread.appendWorker 1) ∧
              proc.BuildsBehindLog := by
  obtain ⟨proc, run, passes⟩ :
      ∃ proc,
        runWhile prevsKeptAlong Process.advance trimmingNode rewonLead =
            some proc ∧
          (decide (proc.server.raft.state = .leader) &&
            (decide (proc.server.oldestLogIndex = 3) &&
              decide (proc.threads[0]? = some (Thread.appendWorker 1)))) = true :=
    runWhile_exists (by decide +kernel)
  obtain ⟨leader, passes⟩ := Bool.and_eq_true_iff.mp passes
  obtain ⟨oldest, worker⟩ := Bool.and_eq_true_iff.mp passes
  exact ⟨proc, run, of_decide_eq_true leader, of_decide_eq_true oldest,
    of_decide_eq_true worker, requests_build_behind_log run⟩

/-- Requests build behind the log in every run without a restart. -/
def AlwaysBuildsBehindLog (start : Process) : Prop :=
  ∀ inputs proc,
    runWhile (fun _ input => !input.act.isRestart) Process.advance start
        inputs = some proc →
    proc.BuildsBehindLog

/-- The call that the next worker for a member would build. -/
def Process.nextCall
    (proc : Process)
    (fi : Nat) :
    Option AppendCall :=
  match (appendEntriesSend fi).run (proc.server.withOutcomes {}) with
  | .ok built _ => built
  | .error _ _ => none

theorem Process.run_of_nextCall
    {proc : Process}
    {fi : Nat}
    {call : AppendCall}
    (built : proc.nextCall fi = some call) :
    ∃ after,
      (appendEntriesSend fi).run (proc.server.withOutcomes {}) =
        .ok (some call) after := by
  unfold Process.nextCall at built
  split at built
  · rename_i ran
    exact ⟨_, built ▸ ran⟩
  · cases built

/-- The second member's block copy fails, and the next round starts. -/
def failedCopyRound : List Input :=
  [{ act := .appendSend 0 },
   { act := .appendReply 0 { term := 3, success := false } },
   { act := mainAct false }, { act := mainAct false },
   { act := mainAct true }, { act := mainAct false }]

/--
The answer of the failed copy has no hint, and the next request names the
trimmed index 2.
-/
theorem failed_copy_leads_behind_log :
    ¬ AlwaysBuildsBehindLog trimmingNode := by
  intro builds
  obtain ⟨proc, run, passes⟩ :
      ∃ proc,
        runWhile (fun _ input => !input.act.isRestart) Process.advance
            trimmingNode (rewonLead ++ failedCopyRound) = some proc ∧
          (!proc.halted && (decide (proc.server.raft.state = .leader) &&
            (decide (proc.threads[1]? = some (Thread.appendWorker 1)) &&
              (proc.nextCall 1).any fun call =>
                decide (0 < call.req.prevLogIndex ∧
                  call.req.prevLogIndex <
                    proc.server.oldestLogIndex)))) = true :=
    runWhile_exists (by decide +kernel)
  obtain ⟨running, passes⟩ := Bool.and_eq_true_iff.mp passes
  obtain ⟨leader, passes⟩ := Bool.and_eq_true_iff.mp passes
  obtain ⟨worker, passes⟩ := Bool.and_eq_true_iff.mp passes
  obtain ⟨call, built, behind⟩ := (Option.any_eq_true _ _).mp passes
  obtain ⟨positive, trimmed⟩ := of_decide_eq_true behind
  obtain ⟨after, ran⟩ := Process.run_of_nextCall built
  have kept := (builds _ _ run 1 1 {} call after (by simpa using running)
    (of_decide_eq_true leader) (of_decide_eq_true worker) ran).2
  rcases kept with zero | ⟨inMemory, -⟩
  · omega
  · omega

end NvmeofRaft
