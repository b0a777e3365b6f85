import NvmeofRaft.Batch
import NvmeofRaft.Unfailing

namespace NvmeofRaft

/-!
# What a success of the append handler stands for

`handle_append_entries_request` with nothing between its lock sections.  It
counts how many entries of a batch the log already covers by lengths alone: an
entry that is there is not compared with the one in the batch, and the commit
index is raised up to the end of the log, not of the batch.
-/

/-- The handler with nothing in between; `copied` is how its copy ends. -/
def handleAppendAlone
    (copied : Bool)
    (req : AppendEntriesRequest) :
    Section AppendEntriesResponse := do
  match ← handleAppendEntriesRequest req with
  | .replied rsp => return rsp
  | .copying pending => handleAppendEntriesFinish pending copied

theorem handleAppendAlone_unfailing
    (copied : Bool)
    (req : AppendEntriesRequest) :
    Unfailing (handleAppendAlone copied req) := by
  refine Unfailing.bind (handleAppendEntriesRequest_unfailing req)
    fun progress => ?_
  cases progress with
  | replied rsp =>
      exact Unfailing.pure _
  | copying pending =>
      exact handleAppendEntriesFinish_unfailing pending copied

/-- An accepted request is not turned down in the first section. -/
def AppendProgress.Confirmed : AppendProgress → Prop
  | .replied rsp => rsp.success = true
  | .copying _ => True

/-- A positive answer confirms the entries of the request. -/
theorem acceptAppend_confirms
    (req : AppendEntriesRequest)
    (server : Server) :
    wp (acceptAppend req) (fun progress _ => progress.Confirmed)
      (fun _ _ => True) server := by
  have finishes :
      ∀ rspTerm (server : Server),
        wp (finishAppend req rspTerm) (fun rsp _ => rsp.success = true)
          (fun _ _ => True) server := by
    intro rspTerm server
    refine wp_mono (finishAppend_spec req rspTerm server) ?_
      fun _ _ _ => trivial
    rintro _ final ⟨rfl, -⟩
    rfl
  simp only [acceptAppend, wp_bind, wp_get, wp_ite, wp_pure, modifyRing,
    wp_modify]
  split
  · exact finishes _ server
  · split
    · split
      · exact finishes _ _
      · trivial
    · exact finishes _ server

/-- A request is turned down only when it is not acceptable. -/
theorem handleAppendEntriesRequest_refuses
    (req : AppendEntriesRequest)
    (server : Server) :
    wp (handleAppendEntriesRequest req)
      (fun progress _ =>
        (server.view.meet req.term).Accepts req → progress.Confirmed)
      (fun _ _ => True) server := by
  simp only [handleAppendEntriesRequest, wp_bind, wp_discard]
  refine wp_mono (updateTerm_spec req.term server) ?_ fun _ _ _ => trivial
  rintro _ middle ⟨-, bumps⟩
  have met : server.view.meet req.term = (middle.stepDown req).view := by
    rw [stepDown_view, bumps]
    rfl
  rw [met]
  simp only [wp_modify, wp_get, wp_ite, wp_pure]
  split
  · rename_i refused
    intro accepts
    rcases refused with other | stale
    · exact absurd accepts.follower other
    · exact absurd accepts.sameTerm (Nat.ne_of_lt stale)
  · have conflict := prevLogConflict_spec (middle.stepDown req) req
    cases checked : prevLogConflict (middle.stepDown req) req with
    | some rsp =>
        rw [checked] at conflict
        intro accepts
        rw [accepts.prevOk] at conflict
        cases conflict.1
    | none =>
        exact wp_mono (acceptAppend_confirms req _)
          (fun _ _ confirmed _ => confirmed) fun _ _ _ => trivial

/-- How an undisturbed handler answers, and the view it leaves. -/
inductive View.Answered
    (view : View)
    (copied : Bool)
    (req : AppendEntriesRequest) :
    Bool → View → Prop where
  | refused :
      ¬ (view.meet req.term).Accepts req →
      Answered view copied req false (view.meet req.term)
  | followed :
      (view.meet req.term).Accepts req →
      ¬ (view.meet req.term).Extends req →
      Answered view copied req true
        ((view.meet req.term).followCommit req.leaderCommit)
  | uncopied :
      (view.meet req.term).Accepts req →
      (view.meet req.term).Extends req →
      copied = false →
      Answered view copied req false (view.meet req.term)
  | completed :
      (view.meet req.term).Accepts req →
      (view.meet req.term).Extends req →
      Answered view copied req true
        ((view.meet req.term).complete ((view.meet req.term).pending req))

/-- How an undisturbed handler that throws leaves the view. -/
inductive View.Thrown
    (view : View)
    (req : AppendEntriesRequest) :
    View → Prop where
  | demotion :
      Thrown view req (view.bump req.term)
  | followed :
      (view.meet req.term).Accepts req →
      ¬ (view.meet req.term).Extends req →
      Thrown view req
        ((view.meet req.term).followCommit req.leaderCommit)
  | completed :
      (view.meet req.term).Accepts req →
      (view.meet req.term).Extends req →
      Thrown view req
        ((view.meet req.term).complete ((view.meet req.term).pending req))

/-- What a handler alone on its node answers and leaves behind. -/
theorem handleAppendAlone_spec
    (copied : Bool)
    (req : AppendEntriesRequest)
    (server : Server) :
    wp (handleAppendAlone copied req)
      (fun rsp final => server.view.Answered copied req rsp.success final.view)
      (fun _ final => server.view.Thrown req final.view) server := by
  rw [handleAppendAlone, wp_bind]
  refine wp_mono (wp_and (handleAppendEntriesRequest_spec req server)
    (handleAppendEntriesRequest_refuses req server)) ?_ ?_
  · rintro progress final ⟨handled, confirmed⟩
    cases progress with
    | replied rsp =>
        rw [wp_pure]
        generalize final.view = after at handled
        cases handled with
        | refused refused _ =>
            rw [refused]
            refine .refused fun accepts => ?_
            have success : rsp.success = true := confirmed accepts
            rw [refused] at success
            cases success
        | followed accepts noData _ =>
            have success : rsp.success = true := confirmed accepts
            rw [success]
            exact .followed accepts noData
        | completed accepts brings _ _ =>
            have success : rsp.success = true := confirmed accepts
            rw [success]
            exact .completed accepts brings
    | copying pending =>
        have finish := handleAppendEntriesFinish_spec pending copied final
        generalize final.view = middle at handled finish
        cases handled with
        | followed _ _ confirms =>
            rcases confirms with other | other
            · cases other
            · cases other
        | completed _ _ _ confirms =>
            rcases confirms with other | other
            · cases other
            · cases other
        | copying accepts brings _ =>
            refine wp_mono finish ?_ ?_
            · rintro _ final ⟨rfl, viewed⟩
              rw [viewed]
              cases copied with
              | true => exact .completed accepts brings
              | false => exact .uncopied accepts brings rfl
            · rintro _ final ⟨_, viewed⟩
              rw [viewed]
              exact .completed accepts brings
  · rintro exn final ⟨handled, -⟩
    generalize final.view = after at handled
    cases handled with
    | demotionThrew _ =>
        exact .demotion
    | followed accepts noData _ =>
        exact .followed accepts noData
    | completed accepts brings _ _ =>
        exact .completed accepts brings

theorem answered_of_run
    {copied : Bool}
    {req : AppendEntriesRequest}
    {server after : Server}
    {rsp : AppendEntriesResponse}
    (ran : (handleAppendAlone copied req).run server = .ok rsp after) :
    server.view.Answered copied req rsp.success after.view := by
  have ends := handleAppendAlone_spec copied req server
  unfold wp at ends
  rw [ran] at ends
  exact ends

theorem withOutcomes_view
    (server : Server)
    (outcomes : IoOutcomes) :
    (server.withOutcomes outcomes).view = server.view :=
  rfl

/-- The request passes the checks of term, state and previous entry. -/
def Server.accepts
    (server : Server)
    (req : AppendEntriesRequest) :
    Bool :=
  (decide (server.raft.currentTerm < req.term) ||
      decide (req.term = server.raft.currentTerm) &&
        decide (server.raft.state ≠ .leader)) &&
    (prevLogConflict server req).isNone

/-- Meeting the request's term leaves the consistency check as it was. -/
theorem prevOk_meet
    (view : View)
    (req : AppendEntriesRequest) :
    (view.meet req.term).prevOk req = view.prevOk req := by
  obtain ⟨term, role, votes, same⟩ := view.revoted_meet req.term
  rw [same]
  rfl

theorem prevLogConflict_isNone
    (server : Server)
    (req : AppendEntriesRequest) :
    (prevLogConflict server req).isNone = server.view.prevOk req := by
  have conflict := prevLogConflict_spec server req
  cases checked : prevLogConflict server req with
  | none =>
      rw [checked] at conflict
      exact conflict.symm
  | some rsp =>
      rw [checked] at conflict
      exact conflict.1.symm

/-- The request is accepted exactly when the view accepts it. -/
theorem accepts_iff
    (server : Server)
    (req : AppendEntriesRequest) :
    server.accepts req = true ↔
      (server.view.meet req.term).Accepts req := by
  have prevOk := prevOk_meet server.view req
  have role :
      (server.raft.currentTerm < req.term ∨
          req.term = server.raft.currentTerm ∧
            server.raft.state ≠ .leader) ↔
        (server.view.meet req.term).role = .follower ∧
          req.term = (server.view.meet req.term).term := by
    have sameTerm : server.view.term = server.raft.currentTerm := rfl
    have sameRole : server.view.role = server.raft.state := rfl
    rw [View.meet, View.bump, View.stepDown, sameTerm]
    by_cases higher : server.raft.currentTerm < req.term
    · simp [higher, View.demote]
    · cases state : server.raft.state with
      | leader =>
          simp [higher, sameRole, sameTerm, state]
      | follower =>
          simp [higher, sameRole, sameTerm, state]
      | candidate =>
          by_cases same : req.term = server.raft.currentTerm
          · simp [sameRole, sameTerm, state, same]
          · simp [higher, sameRole, sameTerm, state, same]
  rw [Server.accepts, prevLogConflict_isNone, ← prevOk]
  simp only [Bool.and_eq_true, Bool.or_eq_true, decide_eq_true_eq, role]
  constructor
  · rintro ⟨⟨follower, same⟩, checked⟩
    exact ⟨follower, same, checked⟩
  · rintro ⟨follower, same, checked⟩
    exact ⟨⟨follower, same⟩, checked⟩

/-- The term and role with which the handler goes on leave the log alone. -/
theorem meet_sameLog
    (view : View)
    (req : AppendEntriesRequest) :
    (view.meet req.term).log = view.log ∧
      (view.meet req.term).tail = view.tail ∧
        (view.meet req.term).commit = view.commit := by
  obtain ⟨term, role, votes, same⟩ := view.revoted_meet req.term
  rw [same]
  exact ⟨rfl, rfl, rfl⟩

namespace View

/-- The log holds an entry of the term at the index. -/
structure HoldsTerm
    (view : View)
    (logIdx term : Nat) : Prop where
  below : logIdx < view.tail
  inLog : sub64 (logIdx + 1) view.oldest < view.log.length
  sameTerm : view.termAt logIdx = term

/--
The log agrees with the request up to its last entry: the previous entry and
the entries of the batch, as far as they have not been trimmed.
-/
structure Agrees
    (view : View)
    (req : AppendEntriesRequest) : Prop where
  reaches : req.prevLogIndex = 0 ∨ req.prevLogIndex < view.tail
  previous :
    view.oldest ≤ req.prevLogIndex →
    view.HoldsTerm req.prevLogIndex req.prevLogTerm
  entries :
    ∀ position term,
      req.terms[position]? = some term →
      view.oldest ≤ req.prevLogIndex + 1 + position →
      view.HoldsTerm (req.prevLogIndex + 1 + position) term

/-- The entries that the log has in common with the batch are the same. -/
def OverlapAgrees
    (view : View)
    (req : AppendEntriesRequest) : Prop :=
  ∀ position term,
    req.terms[position]? = some term →
    view.oldest ≤ req.prevLogIndex + 1 + position →
    req.prevLogIndex + 1 + position < view.tail →
    view.termAt (req.prevLogIndex + 1 + position) = term

/-- The sentinel is there and the oldest index is at least one. -/
structure LogCovered (view : View) : Prop where
  sentinel : 0 < view.log.length
  covered : view.log.length ≤ view.tail

theorem LogCovered.slice_lt
    {view : View}
    {logIdx : Nat}
    (covered : view.LogCovered)
    (inMemory : view.oldest ≤ logIdx)
    (below : logIdx < view.tail) :
    sub64 (logIdx + 1) view.oldest < view.log.length := by
  have sentinel := covered.sentinel
  have bound := covered.covered
  rw [sub64_of_le (Nat.le_succ_of_le inMemory)]
  rw [oldest_eq bound] at inMemory ⊢
  omega

/-- Growth leaves the terms in memory alone. -/
theorem Grown.termAt
    {before after : View}
    {logIdx : Nat}
    (grown : before.Grown after)
    (covered : before.LogCovered)
    (inMemory : before.oldest ≤ logIdx)
    (below : logIdx < before.tail) :
    after.termAt logIdx = before.termAt logIdx := by
  have oldest := grown.oldest covered.sentinel covered.covered
  obtain ⟨added, log, -⟩ := grown
  have inside := covered.slice_lt inMemory below
  rw [View.termAt, View.termAt, oldest, log, List.getD_eq_getElem?_getD,
    List.getD_eq_getElem?_getD, List.getElem?_append_left inside]

/-- A log that grows stays covered. -/
theorem Grown.logCovered
    {before after : View}
    (grown : before.Grown after)
    (covered : before.LogCovered) :
    after.LogCovered := by
  have sentinel := covered.sentinel
  have bound := covered.covered
  obtain ⟨added, log, tail⟩ := grown
  constructor
  · rw [log, List.length_append]
    omega
  · rw [log, tail, List.length_append]
    omega

end View

/-- The request is one that `append_entries_worker` builds. -/
structure AppendEntriesRequest.Built (req : AppendEntriesRequest) : Prop where
  metas : req.entryMetas.length = req.numEntries
  source : 0 < req.numEntries → req.leaderPbaSrc ≠ 0

section

variable {view after : View} {req : AppendEntriesRequest}

/-- However the handler answers, the log has at most grown. -/
theorem View.Answered.grown
    {copied success : Bool}
    (answered : view.Answered copied req success after)
    (covered : view.LogCovered) :
    view.Grown after := by
  obtain ⟨log, tail, -⟩ := meet_sameLog view req
  have started : 0 < (view.meet req.term).tail := by
    have sentinel := covered.sentinel
    have bound := covered.covered
    omega
  cases answered with
  | refused _ =>
      exact ⟨[], by rw [log, List.append_nil], tail⟩
  | followed _ _ =>
      exact ⟨[], log.trans (List.append_nil _).symm, tail⟩
  | uncopied _ _ _ =>
      exact ⟨[], by rw [log, List.append_nil], tail⟩
  | completed accepts brings =>
      have grown := View.complete_grown (View.pending_reaches brings)
        (View.pending_fits started accepts)
      unfold View.Grown at grown ⊢
      rw [log, tail] at grown
      exact grown

/-- A handler that answers success has accepted the request. -/
theorem View.Answered.accepts
    {copied : Bool}
    (answered : view.Answered copied req true after) :
    (view.meet req.term).Accepts req := by
  cases answered with
  | followed accepts _ =>
      exact accepts
  | completed accepts _ =>
      exact accepts

/-- An accepted request whose copy succeeds is answered with success. -/
theorem View.Answered.success
    {success : Bool}
    (answered : view.Answered true req success after)
    (accepts : (view.meet req.term).Accepts req) :
    success = true := by
  cases answered with
  | refused refused =>
      exact absurd accepts refused
  | followed _ _ =>
      rfl
  | uncopied _ _ failed =>
      cases failed
  | completed _ _ =>
      rfl

/-- The log and the tail that the log build leaves. -/
theorem complete_built
    (view : View)
    (built : req.Built) :
    (view.complete (view.pending req)).log =
        view.log ++ req.terms.drop (view.tail - (req.prevLogIndex + 1)) ∧
      (view.complete (view.pending req)).tail =
        req.prevLogIndex + 1 + req.numEntries := by
  simp only [View.complete, View.followCommit, View.build, View.pending,
    built.metas, if_true, AppendEntriesRequest.terms, List.map_drop]
  exact ⟨trivial, trivial⟩

/-- An entry behind the old tail is one of the batch. -/
theorem View.Answered.behind
    {copied : Bool}
    {position term : Nat}
    (answered : view.Answered copied req true after)
    (covered : view.LogCovered)
    (built : req.Built)
    (found : req.terms[position]? = some term)
    (behind : view.tail ≤ req.prevLogIndex + 1 + position) :
    after.HoldsTerm (req.prevLogIndex + 1 + position) term := by
  have grown := answered.grown covered
  have oldest := grown.oldest covered.sentinel covered.covered
  have inside : position < req.numEntries := by
    have inTerms := (List.getElem?_eq_some_iff.mp found).1
    rwa [AppendEntriesRequest.terms, List.length_map, built.metas] at inTerms
  have sentinel := covered.sentinel
  have bound := covered.covered
  have start := View.oldest_eq bound
  obtain ⟨sameLog, sameTail, -⟩ := meet_sameLog view req
  cases answered with
  | followed _ noData =>
      -- A batch that is not copied ends in front of the tail.
      refine absurd ⟨Nat.zero_lt_of_lt inside,
        built.source (Nat.zero_lt_of_lt inside), ?_⟩ noData
      rw [sameTail]
      omega
  | completed accepts brings =>
      obtain ⟨log, tail⟩ := complete_built (view.meet req.term) built
      rw [sameLog, sameTail] at log
      have reached := accepts.prevOk
      rw [prevOk_meet] at reached
      simp only [View.prevOk, Bool.or_eq_true, Bool.and_eq_true,
        decide_eq_true_eq] at reached
      have below :
          req.prevLogIndex + 1 + position <
            ((view.meet req.term).complete
              ((view.meet req.term).pending req)).tail := by
        rw [tail]
        omega
      have inMemory :
          ((view.meet req.term).complete
              ((view.meet req.term).pending req)).oldest ≤
            req.prevLogIndex + 1 + position := by
        rw [oldest, start]
        omega
      refine ⟨below, (grown.logCovered covered).slice_lt inMemory below, ?_⟩
      have slice :
          sub64 (req.prevLogIndex + 1 + position + 1) view.oldest =
            view.log.length +
              (req.prevLogIndex + 1 + position - view.tail) := by
        rw [sub64_of_le (by omega), start]
        omega
      have skipped :
          view.tail - (req.prevLogIndex + 1) +
              (req.prevLogIndex + 1 + position - view.tail) =
            position := by
        omega
      rw [View.termAt, oldest, log, slice, List.getD_eq_getElem?_getD,
        List.getElem?_append_right (Nat.le_add_right _ _),
        Nat.add_sub_cancel_left, List.getElem?_drop, skipped, found]
      rfl

/-- A success on a log that agrees with the batch so far is sound. -/
theorem View.Answered.agrees
    {copied : Bool}
    (answered : view.Answered copied req true after)
    (covered : view.LogCovered)
    (built : req.Built)
    (overlap : view.OverlapAgrees req) :
    after.Agrees req := by
  have grown := answered.grown covered
  have oldest := grown.oldest covered.sentinel covered.covered
  have sentinel := covered.sentinel
  have bound := covered.covered
  have start := View.oldest_eq bound
  have reached := answered.accepts.prevOk
  rw [prevOk_meet] at reached
  simp only [View.prevOk, Bool.or_eq_true, Bool.and_eq_true,
    decide_eq_true_eq] at reached
  have longer : view.tail ≤ after.tail := by
    obtain ⟨added, -, tail⟩ := grown
    omega
  have kept :
      ∀ logIdx,
        view.oldest ≤ logIdx →
        logIdx < view.tail →
        after.HoldsTerm logIdx (view.termAt logIdx) := by
    intro logIdx inMemory below
    have below' : logIdx < after.tail := by omega
    exact ⟨below',
      (grown.logCovered covered).slice_lt (oldest.symm ▸ inMemory) below',
      grown.termAt covered inMemory below⟩
  refine ⟨?_, ?_, ?_⟩
  · omega
  · intro inMemory
    rw [oldest] at inMemory
    rcases reached with zero | ⟨below, trimmed | same⟩
    · omega
    · omega
    · rw [← same]
      exact kept _ inMemory below
  · intro position term found inMemory
    rw [oldest] at inMemory
    by_cases below : req.prevLogIndex + 1 + position < view.tail
    · rw [← overlap position term found inMemory below]
      exact kept _ inMemory below
    · exact answered.behind covered built found (Nat.not_lt.mp below)

/-- A sound success shows that the log agreed with the batch before. -/
theorem View.Answered.overlapAgrees
    {copied : Bool}
    (answered : view.Answered copied req true after)
    (covered : view.LogCovered)
    (agrees : after.Agrees req) :
    view.OverlapAgrees req := by
  have grown := answered.grown covered
  have oldest := grown.oldest covered.sentinel covered.covered
  intro position term found inMemory below
  rw [← grown.termAt covered inMemory below]
  exact (agrees.entries position term found
    (oldest.symm ▸ inMemory)).sameTerm

end

/--
AppendEntries success is sound exactly when the handler turns the request down
or the entries it finds in its log at the indices of the batch are the
leader's: over every state whose log covers its indices, every request that
`append_entries_worker` builds and every I/O outcome, with a successful block
copy and nothing in between.
-/
theorem success_sound_iff
    {server : Server}
    {req : AppendEntriesRequest}
    (covered : server.view.LogCovered)
    (built : req.Built) :
    (∀ outcomes rsp after,
      (handleAppendAlone true req).run (server.withOutcomes outcomes) =
        .ok rsp after →
      rsp.success = true →
      after.view.Agrees req) ↔
      (server.accepts req = true → server.view.OverlapAgrees req) := by
  constructor
  · intro sound accepted
    obtain ⟨rsp, after, ran⟩ :=
      (handleAppendAlone_unfailing true req).returns
        (show (server.withOutcomes {}).Succeeds from rfl)
    have answered := answered_of_run ran
    rw [withOutcomes_view] at answered
    have success := answered.success ((accepts_iff server req).mp accepted)
    have agrees := sound {} rsp after ran success
    rw [success] at answered
    exact answered.overlapAgrees covered agrees
  · intro condition outcomes rsp after ran success
    have answered := answered_of_run ran
    rw [withOutcomes_view] at answered
    rw [success] at answered
    exact answered.agrees covered built
      (condition ((accepts_iff server req).mpr answered.accepts))

/-- A follower with two entries of an older leader. -/
def staleFollower : Server where
  raft := {
    currentTerm := 2
    id := 2
    log := [{}, { term := 1 }, { term := 1 }]
    cluster := [{ id := 1 }, { id := 2 }, { id := 3 }]
    clusterIndex := 1 }
  ring := { RingLog.configure {} 2 with
    tailLogIndex := 3
    tailSlot := 2 }

/-- A batch of one no-op entry behind some entry of the first term. -/
def oneEntryBatch
    (prevLogIndex entryTerm leaderCommit : Nat) :
    AppendEntriesRequest where
  term := 2
  leaderId := 1
  prevLogIndex
  prevLogTerm := 1
  leaderCommit
  leaderPbaSrc := 8704 + prevLogIndex * sectorSize
  logBlockLength := 1
  numEntries := 1
  slotsPerEntry := 1
  startSlot := prevLogIndex
  leaderDevIndex := 0
  entryMetas := [{ term := entryTerm, cmdLen := 0 }]

theorem staleFollower_covered : staleFollower.view.LogCovered :=
  ⟨by decide, by decide⟩

theorem oneEntryBatch_built
    (prevLogIndex entryTerm leaderCommit : Nat) :
    (oneEntryBatch prevLogIndex entryTerm leaderCommit).Built :=
  ⟨rfl, fun _ => by
    simp only [oneEntryBatch]
    omega⟩

/-- The first of the two entries sent once more is confirmed soundly. -/
theorem resent_entry_agrees :
    staleFollower.accepts (oneEntryBatch 0 1 0) = true ∧
      ∀ outcomes rsp after,
        (handleAppendAlone true (oneEntryBatch 0 1 0)).run
            (staleFollower.withOutcomes outcomes) =
          .ok rsp after →
        rsp.success = true →
        after.view.Agrees (oneEntryBatch 0 1 0) := by
  refine ⟨by decide +kernel, (success_sound_iff staleFollower_covered
    (oneEntryBatch_built 0 1 0)).mpr ?_⟩
  rintro - position term found - -
  cases position with
  | zero =>
      exact Option.some.inj found
  | succ position =>
      cases found

/--
An entry of the new leader at the index of an old one is confirmed, and the old
entry stays.
-/
theorem stale_entry_confirmed :
    staleFollower.view.LogCovered ∧ (oneEntryBatch 1 2 0).Built ∧
      ∃ rsp after,
        (handleAppendAlone true (oneEntryBatch 1 2 0)).run staleFollower =
            .ok rsp after ∧
          rsp.success = true ∧
            after.view.log = [0, 1, 1] ∧
              ¬ after.view.Agrees (oneEntryBatch 1 2 0) := by
  refine ⟨staleFollower_covered, oneEntryBatch_built 1 2 0, ?_⟩
  obtain ⟨rsp, after, ran⟩ :=
    (handleAppendAlone_unfailing true (oneEntryBatch 1 2 0)).returns
      (show staleFollower.Succeeds from rfl)
  have answered := answered_of_run ran
  have accepts : (staleFollower.view.meet 2).Accepts (oneEntryBatch 1 2 0) :=
    (accepts_iff staleFollower (oneEntryBatch 1 2 0)).mp (by decide +kernel)
  have success := answered.success accepts
  rw [success] at answered
  refine ⟨rsp, after, ran, success, ?_, fun agrees => ?_⟩
  · generalize after.view = final at answered
    cases answered with
    | followed _ _ =>
        rfl
    | completed _ brings =>
        exact absurd brings.2.2 (by decide)
  · have same := answered.overlapAgrees staleFollower_covered agrees 0 2 rfl
      (by decide) (by decide)
    revert same
    decide

/-- The commit index moves forward, at most to the end of the request. -/
structure View.CommitsVerified
    (before : View)
    (req : AppendEntriesRequest)
    (after : View) : Prop where
  forward : before.commit ≤ after.commit
  verified :
    after.commit ≤
      max before.commit
        (min req.leaderCommit (req.prevLogIndex + req.numEntries))

/-- The leader has not committed more, or the log ends with the request. -/
def View.CommitCovered
    (view : View)
    (req : AppendEntriesRequest) : Prop :=
  req.leaderCommit ≤ view.commit ∨
    req.leaderCommit ≤ req.prevLogIndex + req.numEntries ∨
      view.tail ≤ max view.commit (req.prevLogIndex + req.numEntries) + 1

section

variable {view after : View} {req : AppendEntriesRequest}

theorem View.CommitsVerified.of_same
    (same : after.commit = view.commit) :
    view.CommitsVerified req after :=
  ⟨Nat.le_of_eq same.symm,
    Nat.le_trans (Nat.le_of_eq same) (Nat.le_max_left _ _)⟩

theorem commitsVerified_meet :
    (view.meet req.term).CommitsVerified req after ↔
      view.CommitsVerified req after := by
  obtain ⟨-, -, same⟩ := meet_sameLog view req
  constructor
  · rintro ⟨forward, verified⟩
    rw [same] at forward verified
    exact ⟨forward, verified⟩
  · rintro ⟨forward, verified⟩
    rw [← same] at forward verified
    exact ⟨forward, verified⟩

theorem commitCovered_meet :
    (view.meet req.term).CommitCovered req ↔ view.CommitCovered req := by
  obtain ⟨-, sameTail, sameCommit⟩ := meet_sameLog view req
  rw [View.CommitCovered, sameTail, sameCommit]
  exact Iff.rfl

/-- Where the update of the commit index stays within the request. -/
theorem followCommit_verified_iff
    (committed : view.commit < view.tail) :
    view.CommitsVerified req (view.followCommit req.leaderCommit) ↔
      view.CommitCovered req := by
  simp only [View.CommitCovered, View.followCommit]
  constructor
  · rintro ⟨-, verified⟩
    dsimp only at verified
    split at verified
    · omega
    · exact Or.inl (by omega)
  · intro covered
    constructor
    · dsimp only
      split <;> omega
    · dsimp only
      split <;> omega

/-- Behind the log build the log ends with the request at the latest. -/
theorem complete_verified
    (started : 0 < view.tail)
    (committed : view.commit ≤ view.tail - 1)
    (accepts : view.Accepts req)
    (brings : view.Extends req) :
    view.CommitsVerified req (view.complete (view.pending req)) := by
  have shorter := brings.2.2
  have forward := View.complete_forward committed (View.pending_reaches brings)
    (View.pending_fits started accepts)
  have kept :=
    view.build_commit req (req.prevLogIndex + 1)
      (view.tail - (req.prevLogIndex + 1))
  have ends :
      (view.build req (req.prevLogIndex + 1)
          (view.tail - (req.prevLogIndex + 1))).tail ≤
        req.prevLogIndex + req.numEntries + 1 := by
    unfold View.build
    split
    · exact Nat.le_of_eq (Nat.add_right_comm _ _ _)
    · omega
  rcases forward with same | ⟨higher, -⟩
  · exact .of_same same
  · refine ⟨Nat.le_of_lt higher, ?_⟩
    simp only [View.complete, View.pending, View.followCommit, kept]
    split <;> omega

/-- The handler commits within the request exactly under this condition. -/
theorem View.Answered.verified
    {copied success : Bool}
    (answered : view.Answered copied req success after)
    (committed : view.commit < view.tail)
    (condition :
      (view.meet req.term).Accepts req → view.CommitCovered req) :
    view.CommitsVerified req after := by
  obtain ⟨-, sameTail, sameCommit⟩ := meet_sameLog view req
  cases answered with
  | refused _ =>
      exact .of_same sameCommit
  | followed accepts _ =>
      exact commitsVerified_meet.mp ((followCommit_verified_iff (by omega)).mpr
        (commitCovered_meet.mpr (condition accepts)))
  | uncopied _ _ _ =>
      exact .of_same sameCommit
  | completed accepts brings =>
      exact commitsVerified_meet.mp
        (complete_verified (by omega) (by omega) accepts brings)

/-- A handler that throws has changed what one that returns changes. -/
theorem View.Thrown.answered
    (thrown : view.Thrown req after)
    (copied : Bool) :
    after = view.bump req.term ∨ view.Answered copied req true after := by
  cases thrown with
  | demotion =>
      exact Or.inl rfl
  | followed accepts noData =>
      exact Or.inr (.followed accepts noData)
  | completed accepts brings =>
      exact Or.inr (.completed accepts brings)

/-- A batch that is appended ends behind the tail. -/
theorem View.Extends.commitCovered
    (brings : view.Extends req) :
    view.CommitCovered req := by
  have shorter := brings.2.2
  exact Or.inr (Or.inr (by omega))

end

/--
The handler moves the commit index forward and at most to the last entry that
the request covers exactly when it turns the request down, the leader has not
committed beyond the request, or the log does not reach beyond it: over every
state that has committed only what is in its log, every request, every outcome
of the copy and of the I/O, returning or throwing.
-/
theorem commit_verified_iff
    {server : Server}
    {req : AppendEntriesRequest}
    (committed : server.raft.commitIndex < server.ring.tailLogIndex) :
    (∀ copied outcomes,
      wp (handleAppendAlone copied req)
        (fun _ after => server.view.CommitsVerified req after.view)
        (fun _ after => server.view.CommitsVerified req after.view)
        (server.withOutcomes outcomes)) ↔
      (server.accepts req = true → server.view.CommitCovered req) := by
  constructor
  · intro verified accepted
    have accepts := (accepts_iff server req).mp accepted
    obtain ⟨rsp, after, ran⟩ :=
      (handleAppendAlone_unfailing true req).returns
        (show (server.withOutcomes {}).Succeeds from rfl)
    have ends := verified true {}
    unfold wp at ends
    rw [ran] at ends
    have answered := answered_of_run ran
    rw [withOutcomes_view] at answered
    dsimp only at ends
    generalize after.view = final at answered ends
    generalize rsp.success = success at answered
    obtain ⟨-, sameTail, sameCommit⟩ := meet_sameLog server.view req
    cases answered with
    | refused refused =>
        exact absurd accepts refused
    | followed _ _ =>
        exact commitCovered_meet.mp ((followCommit_verified_iff (by
          rw [sameTail, sameCommit]
          exact committed)).mp (commitsVerified_meet.mpr ends))
    | uncopied _ brings _ =>
        exact commitCovered_meet.mp brings.commitCovered
    | completed _ brings =>
        exact commitCovered_meet.mp brings.commitCovered
  · intro condition copied outcomes
    refine wp_mono
      (handleAppendAlone_spec copied req (server.withOutcomes outcomes))
      (fun rsp after answered => ?_) fun exn after thrown => ?_
    · rw [withOutcomes_view] at answered
      exact answered.verified committed
        fun accepts => condition ((accepts_iff server req).mpr accepts)
    · rw [withOutcomes_view] at thrown
      rcases thrown.answered copied with bumped | answered
      · obtain ⟨_, _, _, same⟩ := server.view.revoted_bump req.term
        rw [bumped, same]
        exact .of_same rfl
      · exact answered.verified committed
          fun accepts => condition ((accepts_iff server req).mpr accepts)

/-- A batch that ends with the log commits within itself. -/
theorem last_entry_commits_verified :
    staleFollower.accepts (oneEntryBatch 1 1 2) = true ∧
      ∀ copied outcomes,
        wp (handleAppendAlone copied (oneEntryBatch 1 1 2))
          (fun _ after =>
            staleFollower.view.CommitsVerified (oneEntryBatch 1 1 2)
              after.view)
          (fun _ after =>
            staleFollower.view.CommitsVerified (oneEntryBatch 1 1 2)
              after.view)
          (staleFollower.withOutcomes outcomes) :=
  ⟨by decide +kernel,
    (commit_verified_iff (by decide)).mpr
      fun _ => Or.inr (Or.inl (by decide))⟩

/--
A batch that confirms the first of two old entries commits the second one too,
which no request has compared with the leader's.
-/
theorem stale_entry_committed :
    staleFollower.raft.commitIndex < staleFollower.ring.tailLogIndex ∧
      ∃ rsp after,
        (handleAppendAlone true (oneEntryBatch 0 1 2)).run staleFollower =
            .ok rsp after ∧
          after.raft.commitIndex = 2 ∧
            ¬ staleFollower.view.CommitsVerified (oneEntryBatch 0 1 2)
                after.view := by
  refine ⟨by decide, ?_⟩
  obtain ⟨rsp, after, ran⟩ :=
    (handleAppendAlone_unfailing true (oneEntryBatch 0 1 2)).returns
      (show staleFollower.Succeeds from rfl)
  have answered := answered_of_run ran
  have accepts : (staleFollower.view.meet 2).Accepts (oneEntryBatch 0 1 2) :=
    (accepts_iff staleFollower (oneEntryBatch 0 1 2)).mp (by decide +kernel)
  have committed : after.view.commit = 2 := by
    generalize after.view = final at answered
    rw [answered.success accepts] at answered
    cases answered with
    | followed _ _ =>
        rfl
    | completed _ brings =>
        exact absurd brings.2.2 (by decide)
  refine ⟨rsp, after, ran, committed, fun bounded => ?_⟩
  have verified := bounded.verified
  rw [committed] at verified
  revert verified
  decide

end NvmeofRaft
