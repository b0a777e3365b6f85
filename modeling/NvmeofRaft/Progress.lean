import NvmeofRaft.Rounds
import NvmeofRaft.LogIndex
import NvmeofRaft.BallotEffect

namespace NvmeofRaft

/-!
# Replication progress

`next_index` and `match_index` of the members over the runs of one process.
A request under way brings entries of the log as it was when the request was
built, so its answer fits the progress records as long as the tail has not
been moved back in between; only an append handler that finishes can do that.
-/

/-- `next_index` and `match_index` of every member fit the log. -/
structure View.Tracks (view : View) : Prop where
  aligned : view.nexts.length = view.matched.length
  fits :
    ∀ fi next matchIndex : Nat,
      view.nexts[fi]? = some next →
      view.matched[fi]? = some matchIndex →
      matchIndex + 1 ≤ next ∧ next ≤ view.tail

/-- What a request under way brings was in the log. -/
def Node.CallsInLog (node : Node) : Prop :=
  ∀ thread ∈ node.threads, ∀ fi call,
    thread.call? = some (fi, call) →
    call.next + call.lenEntries ≤ node.view.tail

/--
The handler that finishes does not move the tail back: a copy that succeeded
with the metadata of all its entries ends at or behind the tail.
-/
def Node.tailKept
    (node : Node) :
    Act → Bool
  | .handleAppendFinish index true =>
      match node.threads[index]? with
      | some (.appendHandler _ pending) =>
          decide (pending.req.entryMetas.length = pending.req.numEntries →
            node.view.tail ≤ pending.newTail + pending.req.numEntries)
      | _ => true
  | _ => true

/-- A tail above a bound stays above it unless a handler moves it back. -/
theorem Node.Step.tail_above
    {mapped : Nat → Prop}
    {node after : Node}
    {act : Act}
    {outputs : Outputs}
    {bound : Nat}
    (step : node.Step mapped act after outputs)
    (above : bound < node.view.tail)
    (stays : act.isRestart = false)
    (finishes :
      ∀ index src pending,
        act = .handleAppendFinish index true →
        node.threads[index]? = some (.appendHandler src pending) →
        pending.req.entryMetas.length = pending.req.numEntries →
        bound < pending.newTail + pending.req.numEntries) :
    bound < after.view.tail := by
  cases step.logEffect with
  | kept same =>
      rw [same.tail]
      exact above
  | won _ _ _ tail =>
      omega
  | pushed _ viewed =>
      rw [viewed]
      exact Nat.lt_add_right _ above
  | @completed src req _ accepts brings _ viewed =>
      have met := (node.view.revoted_meet req.term).sameLog
      have started : 0 < (node.view.meet req.term).tail := by
        rw [met.tail]
        exact Nat.zero_lt_of_lt above
      obtain ⟨added, -, tail⟩ := View.complete_grown
        (View.pending_reaches brings) (View.pending_fits started accepts)
      rw [viewed, tail, met.tail]
      exact Nat.lt_add_right _ above
  | @finished index src pending _ found viewed =>
      rw [viewed]
      simp only [View.complete, View.followCommit, View.build]
      split
      · rename_i whole
        exact finishes index src pending rfl found whole
      · exact above
  | trimmed _ viewed =>
      rw [viewed]
      exact above
  | restarted _ =>
      cases stays
  | restartThrew _ _ =>
      cases stays

/-- No step but a restart moves the tail back. -/
theorem Node.Step.tail_le
    {mapped : Nat → Prop}
    {node after : Node}
    {act : Act}
    {outputs : Outputs}
    (step : node.Step mapped act after outputs)
    (started : 0 < node.view.tail)
    (kept : node.tailKept act = true)
    (stays : act.isRestart = false) :
    node.view.tail ≤ after.view.tail := by
  refine Nat.le_of_pred_lt
    (step.tail_above (Nat.pred_lt_of_lt started) stays ?_)
  rintro index src pending rfl found whole
  simp only [Node.tailKept, found, decide_eq_true_eq] at kept
  exact Nat.lt_of_lt_of_le (Nat.pred_lt_of_lt started) (kept whole)

/-- The progress records are the same. -/
structure View.SameProgress (before after : View) : Prop where
  nexts : after.nexts = before.nexts
  matched : after.matched = before.matched

theorem View.Revoted.sameProgress
    {before after : View}
    (revoted : before.Revoted after) :
    before.SameProgress after := by
  obtain ⟨_, _, _, rfl⟩ := revoted
  exact ⟨rfl, rfl⟩

theorem View.complete_progress
    (view : View)
    (pending : PendingAppend) :
    view.SameProgress (view.complete pending) := by
  unfold View.complete View.followCommit View.build
  split <;> exact ⟨rfl, rfl⟩

theorem View.Handled.sameProgress
    {view after : View}
    {req : AppendEntriesRequest}
    {result : Option AppendProgress}
    (handled : view.Handled req result after) :
    view.SameProgress after := by
  have met := (view.revoted_meet req.term).sameProgress
  cases handled with
  | demotionThrew _ =>
      exact (view.revoted_bump req.term).sameProgress
  | refused _ _ =>
      exact met
  | followed _ _ _ =>
      exact ⟨met.nexts, met.matched⟩
  | copying _ _ _ =>
      exact met
  | completed _ _ _ _ =>
      have completed := View.complete_progress (view.meet req.term)
        ((view.meet req.term).pending req)
      exact ⟨completed.nexts.trans met.nexts,
        completed.matched.trans met.matched⟩

/-- The changes of the progress records, by the acts that make them. -/
inductive Node.ProgressEffect
    (node : Node) :
    Act → Node → Prop where
  | kept
      {act : Act}
      {after : Node} :
      node.view.SameProgress after.view →
      ProgressEffect node act after
  | clamped
      {index fi : Nat}
      {after : Node} :
      after.view = node.view.clampNext fi →
      ProgressEffect node (.appendSend index) after
  | booked
      {index fi : Nat}
      {call : AppendCall}
      {rsp : AppendEntriesResponse}
      {after : Node} :
      node.threads[index]? = some (.appendCall fi call) →
      node.view.Booked fi call (some rsp) after.view →
      ProgressEffect node (.appendReply index rsp) after
  | reset
      {expired : Bool}
      {load : Nat → Option (List UInt8)}
      {applied : Nat}
      {after : Node} :
      node.wins (.main expired load) = true →
      after.view = (node.view.promoted applied).resetProgress →
      ProgressEffect node (.main expired load) after

theorem Node.Step.progressEffect
    {mapped : Nat → Prop}
    {node after : Node}
    {act : Act}
    {outputs : Outputs}
    (step : node.Step mapped act after outputs)
    (stays : act.isRestart = false) :
    node.ProgressEffect act after := by
  cases step with
  | electionWon pc won _ =>
      refine .reset ?_ rfl
      simp [Node.wins, pc, won]
  | appendHeld _ =>
      exact .clamped rfl
  | appendCopying _ _ _ =>
      exact .clamped rfl
  | appendSent _ _ _ =>
      exact .clamped rfl
  | appendSendThrew _ =>
      exact .clamped rfl
  | appendAnswered found booked =>
      exact .booked found booked
  | voteCounted _ =>
      exact .kept (View.revoted_reply _ _ _).sameProgress
  | voteCountThrew _ =>
      exact .kept (View.revoted_reply _ _ _).sameProgress
  | voteHandled =>
      exact .kept (View.revoted_voted _).sameProgress
  | voteHandlerThrew viewed =>
      rcases viewed with rfl | rfl
      · exact .kept (View.revoted_bump _).sameProgress
      · exact .kept (View.revoted_voted _).sameProgress
  | appendReplied handled =>
      exact .kept handled.sameProgress
  | appendBegun handled =>
      exact .kept handled.sameProgress
  | appendHandlerThrew handled =>
      exact .kept handled.sameProgress
  | @appendFinished index src pending copied view found viewed =>
      refine .kept ?_
      rw [viewed]
      split
      · exact View.complete_progress _ _
      · exact ⟨rfl, rfl⟩
  | appendFinishThrew _ =>
      exact .kept (View.complete_progress _ _)
  | restarted =>
      cases stays
  | restartThrew =>
      cases stays
  | _ =>
      exact .kept ⟨rfl, rfl⟩

section

variable {view after : View} {fi : Nat}

theorem View.SameProgress.tracks
    (same : view.SameProgress after)
    (tail : view.tail ≤ after.tail)
    (tracks : view.Tracks) :
    after.Tracks where
  aligned := by
    rw [same.nexts, same.matched]
    exact tracks.aligned
  fits := by
    intro member next matchIndex nextHeld matchHeld
    rw [same.nexts] at nextHeld
    rw [same.matched] at matchHeld
    have fits := tracks.fits member next matchIndex nextHeld matchHeld
    exact ⟨fits.1, fits.2.trans tail⟩

/-- One member gets new values that fit; the others keep theirs. -/
theorem View.Tracks.setMember
    (tracks : view.Tracks)
    (fi : Nat)
    {next matchIndex : Nat}
    (ahead : matchIndex + 1 ≤ next)
    (inLog : next ≤ view.tail) :
    { view with
      nexts := view.nexts.set fi next
      matched := view.matched.set fi matchIndex }.Tracks where
  aligned := by
    simp only [List.length_set]
    exact tracks.aligned
  fits := by
    intro member memberNext memberMatch nextHeld matchHeld
    dsimp only at nextHeld matchHeld ⊢
    by_cases same : fi = member
    · subst same
      obtain ⟨rfl, -⟩ := getElem?_set_self_eq_some nextHeld
      obtain ⟨rfl, -⟩ := getElem?_set_self_eq_some matchHeld
      exact ⟨ahead, inLog⟩
    · rw [List.getElem?_set_ne same] at nextHeld matchHeld
      exact tracks.fits member memberNext memberMatch nextHeld matchHeld

/-- A tracked next index is not ahead of the log, so nothing is clamped. -/
theorem View.Tracks.clampNext_eq
    (tracks : view.Tracks)
    (started : 0 < view.tail) :
    view.clampNext fi = view := by
  have same :
      view.nexts.modify fi (fun next => min next (view.tail - 1 + 1)) =
        view.nexts := by
    refine List.ext_getElem? fun member => ?_
    rw [List.getElem?_modify]
    cases held : view.nexts[member]? with
    | none =>
        rfl
    | some next =>
        have inside := (List.getElem?_eq_some_iff.mp held).1
        have fits := tracks.fits member next _ held
          (List.getElem?_eq_getElem (tracks.aligned ▸ inside))
        simp only [Option.map_eq_map, Option.map_some, Option.some.injEq]
        split <;> omega
  unfold View.clampNext
  rw [same]

theorem modify_eq_set_getD
    (list : List Nat)
    (index : Nat)
    (change : Nat → Nat) :
    list.modify index change =
      list.set index (change (list.getD index 0)) := by
  have whole := @map_modify_getD Nat Nat id change list index 0
  simpa only [List.map_id, id] using whole

theorem set_getD_self
    (list : List Nat)
    (index : Nat) :
    list.set index (list.getD index 0) = list := by
  have whole := modify_eq_set_getD list index id
  rw [List.modify_id] at whole
  exact whole.symm

/-- The two records of a member, when it has any. -/
theorem View.Tracks.getD
    (tracks : view.Tracks)
    (fi : Nat) :
    view.nexts.getD fi 0 ≤ view.tail ∧
      (view.matched.getD fi 0 + 1 ≤ view.nexts.getD fi 0 ∨
        view.matched.getD fi 0 = 0) := by
  simp only [List.getD_eq_getElem?_getD]
  cases held : view.nexts[fi]? with
  | none =>
      have outside := List.getElem?_eq_none_iff.mp held
      rw [tracks.aligned] at outside
      simp [List.getElem?_eq_none_iff.mpr outside]
  | some next =>
      have inside := (List.getElem?_eq_some_iff.mp held).1
      have matchHeld := List.getElem?_eq_getElem (tracks.aligned ▸ inside)
      have fits := tracks.fits fi next _ held matchHeld
      rw [matchHeld]
      exact ⟨fits.2, Or.inl fits.1⟩

/-- A value that is replaced by a larger one. -/
theorem getD_le_getD_set
    {list : List Nat}
    {index value : Nat}
    (larger : list.getD index 0 ≤ value)
    (position : Nat) :
    list.getD position 0 ≤ (list.set index value).getD position 0 := by
  simp only [List.getD_eq_getElem?_getD] at larger ⊢
  by_cases same : index = position
  · subst same
    by_cases inside : index < list.length
    · rw [List.getElem?_set_self inside]
      exact larger
    · rw [List.getElem?_eq_none_iff.mpr (Nat.not_lt.mp inside)]
      exact Nat.zero_le _
  · rw [List.getElem?_set_ne same]

/-- No match index has moved back. -/
def View.MatchesForward (before after : View) : Prop :=
  ∀ fi : Nat, before.matched.getD fi 0 ≤ after.matched.getD fi 0

theorem View.matchesForward_of_eq
    (same : after.matched = view.matched) :
    view.MatchesForward after := by
  intro member
  rw [same]

/-- Booking an answer keeps the records in the log and the matches. -/
theorem View.Tracks.booked
    {call : AppendCall}
    {answer : Option AppendEntriesResponse}
    (tracks : view.Tracks)
    (started : 0 < view.tail)
    (inLog : call.next + call.lenEntries ≤ view.tail)
    (booked : view.Booked fi call answer after) :
    after.Tracks ∧ view.MatchesForward after := by
  obtain ⟨nextInLog, ahead⟩ := tracks.getD fi
  cases booked with
  | ignored =>
      exact ⟨tracks, View.matchesForward_of_eq rfl⟩
  | succeeded _ _ _ =>
      rw [modify_eq_set_getD]
      refine ⟨tracks.setMember fi (by omega) (by omega), ?_⟩
      exact getD_le_getD_set (by omega)
  | @failed rsp next bound floor =>
      refine ⟨?_, View.matchesForward_of_eq rfl⟩
      rcases floor with same | floor
      · rw [same, set_getD_self]
        exact tracks
      · have set := tracks.setMember fi floor (by omega)
        rw [set_getD_self] at set
        exact set

end

/-- A request is built from entries of the log. -/
theorem View.Built.inLog_all
    {view : View}
    {fi : Nat}
    {call : AppendCall}
    (built : (view.clampNext fi).Built fi call)
    (started : 0 < view.tail) :
    call.next + call.lenEntries ≤ view.tail := by
  have fromNext := built.fromNext
  have inLog := built.inLog
  simp only [View.clampNext] at fromNext inLog
  rw [modify_eq_set_getD] at fromNext
  have clamped : call.next ≤ view.tail := by
    rw [fromNext, List.getD_eq_getElem?_getD]
    cases held :
        (view.nexts.set fi
          (min (view.nexts.getD fi 0) (view.tail - 1 + 1)))[fi]? with
    | none =>
        exact Nat.zero_le _
    | some next =>
        obtain ⟨rfl, -⟩ := getElem?_set_self_eq_some held
        simp only [Option.getD_some]
        omega
  by_cases entries : 0 < call.lenEntries
  · have bound := (inLog entries).2
    omega
  · omega

/-- What the answers to requests under way rest on. -/
structure Node.Rooted (node : Node) : Prop where
  started : node.halted = false → 0 < node.view.tail
  inLog : node.CallsInLog

/-- A step of a running process keeps the requests under way in the log. -/
theorem Node.Step.rooted
    {mapped : Nat → Prop}
    {node after : Node}
    {act : Act}
    {outputs : Outputs}
    (step : node.Step mapped act after outputs)
    (started : 0 < node.view.tail)
    (inLog : node.CallsInLog)
    (kept : node.tailKept act = true)
    (stays : act.isRestart = false) :
    after.Rooted := by
  have tail := step.tail_le started kept stays
  refine ⟨fun _ => Nat.lt_of_lt_of_le started tail, ?_⟩
  intro thread held fi call calls
  refine le_trans ?_ tail
  rcases step.thread_origin held with old | new
  · exact inLog thread old fi call calls
  · cases new with
    | leaderCopy _ built _ _ =>
        cases calls
        exact built.inLog_all started
    | appendCall _ built _ _ =>
        cases calls
        exact built.inLog_all started
    | copiedCall copying =>
        cases calls
        have before := inLog _ copying _ _ rfl
        exact before
    | _ => cases calls

/-- So does a restart, which leaves no request. -/
theorem Node.Step.rooted_of_restart
    {mapped : Nat → Prop}
    {node after : Node}
    {kernel : KernelAnswers}
    {cacheLost : Bool}
    {outputs : Outputs}
    (step : node.Step mapped (.restart kernel cacheLost) after outputs) :
    after.Rooted := by
  cases step with
  | restarted =>
      refine ⟨fun _ => Nat.one_pos, fun thread held => ?_⟩
      cases held
  | restartThrew =>
      refine ⟨fun running => ?_, fun thread held => ?_⟩
      · cases running
      · cases held

/-- A new leader sets records that fit its log. -/
theorem View.tracks_of_reset
    {view : View}
    (aligned : view.nexts.length = view.matched.length)
    (started : 0 < view.tail)
    (applied : Nat) :
    (view.promoted applied).resetProgress.Tracks where
  aligned := by
    simp only [View.resetProgress, List.length_map]
    exact aligned
  fits := by
    intro fi next matchIndex nextHeld matchHeld
    simp only [View.resetProgress, List.getElem?_map] at nextHeld matchHeld
    obtain ⟨_, -, rfl⟩ := Option.map_eq_some_iff.mp nextHeld
    obtain ⟨_, -, rfl⟩ := Option.map_eq_some_iff.mp matchHeld
    simp only [View.resetProgress, View.promoted, View.push]
    omega

/-- A `become_leader` that wins and returns has set the records. -/
theorem Node.Step.elected
    {mapped : Nat → Prop}
    {node after : Node}
    {act : Act}
    {outputs : Outputs}
    (step : node.Step mapped act after outputs)
    (wins : node.wins act = true)
    (running : after.halted = false) :
    after.main = .top ∧
      ∃ applied,
        after.view = (node.view.promoted applied).resetProgress := by
  cases act with
  | main expired load =>
      obtain ⟨atElection, won⟩ := Bool.and_eq_true_iff.mp wins
      have pc := of_decide_eq_true atElection
      have elsewhere : ∀ {other}, node.main = other → other = .becomeLeader :=
        fun same => same.symm.trans pc
      cases step with
      | electionWon _ _ _ => exact ⟨rfl, _, rfl⟩
      | electionThrew _ _ _ => cases running
      | electionOpen _ lost => exact absurd (of_decide_eq_true won) lost
      | readLeader other _ => cases elsewhere other
      | readOther other _ => cases elsewhere other
      | heartbeat other => cases elsewhere other
      | spawnAppends other => cases elsewhere other
      | commitKept other => cases elsewhere other
      | commitRaised other _ => cases elsewhere other
      | timeoutQuiet other => cases elsewhere other
      | timeoutFired other => cases elsewhere other
      | timeoutThrew other => cases elsewhere other
      | spawnVotes other => cases elsewhere other
  | _ =>
      cases wins

/-- A step keeps the records fitting, and the matches until an election. -/
theorem Node.Step.tracks
    {mapped : Nat → Prop}
    {node after : Node}
    {act : Act}
    {outputs : Outputs}
    (step : node.Step mapped act after outputs)
    (started : 0 < node.view.tail)
    (inLog : node.CallsInLog)
    (kept : node.tailKept act = true)
    (stays : act.isRestart = false)
    (tracks : node.view.Tracks) :
    after.view.Tracks ∧
      (node.wins act = false → node.view.MatchesForward after.view) := by
  have tail := step.tail_le started kept stays
  cases step.progressEffect stays with
  | kept same =>
      exact ⟨same.tracks tail tracks,
        fun _ => View.matchesForward_of_eq same.matched⟩
  | clamped viewed =>
      rw [viewed, tracks.clampNext_eq started]
      exact ⟨tracks, fun _ => View.matchesForward_of_eq rfl⟩
  | booked found booked =>
      have kept := tracks.booked started
        (inLog _ (List.mem_of_getElem? found) _ _ rfl) booked
      exact ⟨kept.1, fun _ => kept.2⟩
  | @reset expired load applied _ wins viewed =>
      rw [viewed]
      refine ⟨View.tracks_of_reset tracks.aligned started applied,
        fun noWin => ?_⟩
      rw [wins] at noWin
      cases noWin

/-- The handlers' condition on a step of a process. -/
def tailKept
    (proc : Process)
    (input : Input) :
    Bool :=
  proc.node.tailKept input.act

/-- The condition, for a process that is not started again. -/
def tailKeptAlong
    (proc : Process)
    (input : Input) :
    Bool :=
  tailKept proc input && !input.act.isRestart

/-- The records of every member fit the log of the process. -/
def Process.ProgressFits (proc : Process) : Prop :=
  ∀ (fi : Nat) (member : ClusterMember),
    proc.server.raft.cluster[fi]? = some member →
    member.matchIndex + 1 ≤ member.nextIndex ∧
      member.nextIndex ≤ proc.server.ring.tailLogIndex

/-- No match index has moved back. -/
def Process.MatchesForward (before after : Process) : Prop :=
  ∀ (fi : Nat) (member later : ClusterMember),
    before.server.raft.cluster[fi]? = some member →
    after.server.raft.cluster[fi]? = some later →
    member.matchIndex ≤ later.matchIndex

/-- A well-formed process whose requests under way are in its log. -/
structure Process.Rooted (proc : Process) : Prop where
  wellformed : proc.Wellformed
  rooted : proc.node.Rooted

theorem Process.Rooted.step
    {proc : Process}
    {input : Input}
    {next : Process}
    (rooted : proc.Rooted)
    (kept : tailKept proc input = true)
    (advanced : proc.advance input = some next) :
    next.Rooted := by
  obtain ⟨result, stepped, rfl⟩ := Option.map_eq_some_iff.mp advanced
  have does := Process.step_does rooted.wellformed stepped
  refine ⟨Process.step_wellformed rooted.wellformed stepped, ?_⟩
  cases stays : input.act.isRestart with
  | false =>
      have running := Process.running_of_step stepped
        (Act.not_restart stays)
      exact Node.Step.rooted does (rooted.rooted.started running)
        rooted.rooted.inLog kept stays
  | true =>
      unfold Process.Does at does
      cases act : input.act with
      | restart kernel cacheLost =>
          rw [act] at does
          exact does.rooted_of_restart
      | _ =>
          rw [act] at stays
          cases stays

/-- A process whose records fit, with what keeps them fitting. -/
structure Process.Tracked (proc : Process) : Prop where
  rooted : proc.Rooted
  tracks : proc.node.view.Tracks

theorem Process.Tracked.step
    {proc : Process}
    {input : Input}
    {next : Process}
    (tracked : proc.Tracked)
    (kept : tailKeptAlong proc input = true)
    (advanced : proc.advance input = some next) :
    next.Tracked ∧
      (proc.node.wins input.act = false →
        proc.node.view.MatchesForward next.node.view) := by
  obtain ⟨tailStays, noRestart⟩ := Bool.and_eq_true_iff.mp kept
  have stays : input.act.isRestart = false := by simpa using noRestart
  have rooted := tracked.rooted.step tailStays advanced
  obtain ⟨result, stepped, rfl⟩ := Option.map_eq_some_iff.mp advanced
  have does := Process.step_does tracked.rooted.wellformed stepped
  have running := Process.running_of_step stepped (Act.not_restart stays)
  have records := Node.Step.tracks does
    (tracked.rooted.rooted.started running) tracked.rooted.rooted.inLog
    tailStays stays tracked.tracks
  exact ⟨⟨rooted, records.1⟩, records.2⟩

/-- What the view says about the records is what the members hold. -/
theorem Process.Tracked.fits
    {proc : Process}
    (tracked : proc.Tracked) :
    proc.ProgressFits := by
  intro fi member found
  refine tracked.tracks.fits fi member.nextIndex member.matchIndex ?_ ?_
  · simp [Process.node, Server.view, found]
  · simp [Process.node, Server.view, found]

theorem matchesForward_of_view
    {before after : Process}
    (forward : before.node.view.MatchesForward after.node.view) :
    before.MatchesForward after := by
  intro fi member later found foundLater
  have moved := forward fi
  simpa [Process.node, Server.view, found, foundLater] using moved

/-- The winner of an election starts with records that fit. -/
theorem Process.Rooted.elected
    {proc : Process}
    {input : Input}
    {leader : Process}
    (rooted : proc.Rooted)
    (wins : proc.node.wins input.act = true)
    (advanced : proc.advance input = some leader)
    (running : leader.halted = false) :
    leader.Tracked := by
  have stays : input.act.isRestart = false := by
    cases act : input.act with
    | restart kernel cacheLost =>
        rw [act] at wins
        cases wins
    | _ =>
        rfl
  have kept : tailKept proc input = true := by
    cases act : input.act with
    | main expired load =>
        simp only [tailKept, act, Node.tailKept]
    | _ =>
        rw [act] at wins
        cases wins
  refine ⟨rooted.step kept advanced, ?_⟩
  obtain ⟨result, stepped, rfl⟩ := Option.map_eq_some_iff.mp advanced
  have does := Process.step_does rooted.wellformed stepped
  obtain ⟨-, applied, viewed⟩ := Node.Step.elected does wins running
  rw [viewed]
  refine View.tracks_of_reset ?_ (rooted.rooted.started
    (Process.running_of_step stepped (Act.not_restart stays))) applied
  simp [Process.node, Server.view]

theorem boot_rooted
    {n : Nat}
    (members : Membership n)
    (settings : Fin n → Settings)
    (node : Fin n) :
    (members.boot settings node).Rooted where
  wellformed := boot_wellformed members settings node
  rooted := by
    obtain ⟨halted, fresh⟩ := boot_node members settings node
    rw [fresh]
    refine ⟨fun running => ?_, fun thread held => ?_⟩
    · cases halted with
      | false => exact Nat.one_pos
      | true => cases running
    · cases held

/--
Progress bookkeeping: from the moment a `become_leader` has set the records of
the members, as long as no append handler moves the tail back, every member
has `match_index + 1 <= next_index <= tail_log_index`, and no match index moves
back before the next election is won.
-/
theorem progress_fits_log
    {n : Nat}
    {members : Membership n}
    {settings : Fin n → Settings}
    {node : Fin n}
    {before : List Input}
    {candidate leader proc : Process}
    {election : Input}
    {inputs : List Input}
    (campaign :
      runWhile tailKept Process.advance (members.boot settings node)
        before = some candidate)
    (wins : candidate.node.wins election.act = true)
    (elected : candidate.advance election = some leader)
    (running : leader.halted = false)
    (run :
      runWhile tailKeptAlong Process.advance leader inputs = some proc) :
    proc.ProgressFits ∧
      ∀ more final,
        runWhile
            (fun proc input =>
              tailKeptAlong proc input && !proc.node.wins input.act)
            Process.advance proc more = some final →
        proc.MatchesForward final := by
  have rooted : candidate.Rooted :=
    runWhile_invariant Process.Rooted
      (fun _ _ _ rooted kept advanced => rooted.step kept advanced)
      (boot_rooted members settings node) campaign
  have tracked : proc.Tracked :=
    runWhile_invariant Process.Tracked
      (fun _ _ _ tracked kept advanced => (tracked.step kept advanced).1)
      (rooted.elected wins elected running) run
  refine ⟨tracked.fits, fun more final onward => matchesForward_of_view ?_⟩
  have both :
      final.Tracked ∧ proc.node.view.MatchesForward final.node.view := by
    refine runWhile_invariant
      (fun later =>
        later.Tracked ∧ proc.node.view.MatchesForward later.node.view)
      (fun later input next holds allowed advanced => ?_)
      ⟨tracked, fun _ => le_refl _⟩ onward
    obtain ⟨kept, noWin⟩ := Bool.and_eq_true_iff.mp allowed
    obtain ⟨nextTracked, forward⟩ := holds.1.step kept advanced
    exact ⟨nextTracked, fun fi =>
      (holds.2 fi).trans (forward (by simpa using noWin) fi)⟩
  exact both.2

/-- The first node is about to win the election of `firstLead`. -/
def firstCampaign : List Input :=
  firstLead.dropLast

/-- The round of the first leader is answered. -/
def answeredRound : List Input :=
  [{ act := mainAct false }, { act := mainAct true },
   { act := mainAct false }, { act := .appendSend 0 },
   { act := .appendReply 0 { term := 1, success := true } }]

/-- A leader books the answer to its first round. -/
theorem answered_round_fits_log :
    ∃ candidate leader proc,
      runWhile tailKept Process.advance firstNode firstCampaign =
          some candidate ∧
        candidate.advance { act := mainAct false } = some leader ∧
          runWhile tailKeptAlong Process.advance leader answeredRound =
              some proc ∧
            proc.server.view.matched = [0, 1, 0] ∧
              proc.ProgressFits := by
  obtain ⟨candidate, campaign, passes⟩ :
      ∃ candidate,
        runWhile tailKept Process.advance firstNode firstCampaign =
            some candidate ∧
          (candidate.node.wins (mainAct false) &&
            (candidate.advance { act := mainAct false }).any fun leader =>
              !leader.halted &&
                (runWhile tailKeptAlong Process.advance leader
                  answeredRound).any fun proc =>
                    decide (proc.server.view.matched = [0, 1, 0])) = true :=
    runWhile_exists (by decide +kernel)
  obtain ⟨wins, passes⟩ := Bool.and_eq_true_iff.mp passes
  obtain ⟨leader, elected, passes⟩ := (Option.any_eq_true _ _).mp passes
  obtain ⟨running, passes⟩ := Bool.and_eq_true_iff.mp passes
  obtain ⟨proc, run, matched⟩ := (Option.any_eq_true _ _).mp passes
  exact ⟨candidate, leader, proc, campaign, elected, run,
    of_decide_eq_true matched,
    (progress_fits_log campaign wins elected (by simpa using running)
      run).1⟩

/-- After any election the records fit the log, in every run of a process. -/
def ProgressAlwaysFits (start : Process) : Prop :=
  ∀ before candidate election leader inputs proc,
    runWhile (fun _ input => !input.act.isRestart) Process.advance start
        before = some candidate →
    candidate.node.wins election.act = true →
    candidate.advance election = some leader →
    leader.halted = false →
    runWhile (fun _ input => !input.act.isRestart) Process.advance leader
        inputs = some proc →
    proc.ProgressFits

/--
A handler of term 1 copies while the node leads term 2, appends two commands
and sends them, and moves the tail back after the vote of term 3 has demoted
the node, which then stands for term 4.
-/
def lateCampaign : List Input :=
  [{ act := .handleAppend 1 firstEntryRequest },
   { act := mainAct false }, { act := mainAct true }, { act := mainAct false },
   { act := .voteSend 1 },
   { act := .voteReply 1 { term := 2, voteGranted := true } },
   { act := .voteSend 1 }, { act := .voteDrop 1 },
   { act := mainAct false }, { act := mainAct false }, { act := mainAct false },
   { act := mainAct false },
   { act := .apply 0 [[1], [2]] }, { act := .applySpawn 1 },
   { act := .appendSend 1 },
   { act := .handleVote 2
       { term := 3, candidateId := 3, lastLogIndex := 3, lastLogTerm := 2 } },
   { act := .handleAppendFinish 0 true },
   { act := mainAct false }, { act := mainAct true }, { act := mainAct false },
   { act := mainAct false },
   { act := .voteSend 2 },
   { act := .voteReply 2 { term := 4, voteGranted := true } },
   { act := mainAct false }, { act := mainAct false }]

/-- The answer to the request of term 2 reaches the leader of term 4. -/
theorem late_answer_passes_tail :
    ¬ ProgressAlwaysFits firstNode := by
  intro fits
  obtain ⟨candidate, campaign, passes⟩ :
      ∃ candidate,
        runWhile (fun _ input => !input.act.isRestart) Process.advance
            firstNode lateCampaign = some candidate ∧
          (candidate.node.wins (mainAct false) &&
            (candidate.advance { act := mainAct false }).any fun leader =>
              !leader.halted &&
                (leader.advance
                    { act :=
                        .appendReply 0 { term := 2, success := true } }).any
                  fun proc =>
                    proc.server.raft.cluster[1]?.any fun member =>
                      decide (proc.server.ring.tailLogIndex <
                        member.nextIndex)) = true :=
    runWhile_exists (by decide +kernel)
  obtain ⟨wins, passes⟩ := Bool.and_eq_true_iff.mp passes
  obtain ⟨leader, elected, passes⟩ := (Option.any_eq_true _ _).mp passes
  obtain ⟨running, passes⟩ := Bool.and_eq_true_iff.mp passes
  obtain ⟨proc, answered, passes⟩ := (Option.any_eq_true _ _).mp passes
  obtain ⟨member, found, beyond⟩ := (Option.any_eq_true _ _).mp passes
  have run :
      runWhile (fun _ input => !input.act.isRestart) Process.advance leader
          [{ act := .appendReply 0 { term := 2, success := true } }] =
        some proc := by
    simp only [runWhile, Act.isRestart, Bool.not_false, if_true, answered,
      Option.bind_some]
  have within := (fits _ _ _ _ _ _ campaign wins elected
    (by simpa using running) run 1 member found).2
  exact Nat.not_lt.mpr within (of_decide_eq_true beyond)

end NvmeofRaft
