import NvmeofRaft.TermWords

namespace NvmeofRaft

/-!
# Term fencing of appends

The append handler checks term and role in its first section and acts on them
in the second one.  The check still holds there when nothing has moved the
term or taken the node out of the follower state in between, and votes of
higher terms lie behind it as long as the term does not wrap.
-/

/-- A handler is between its two sections. -/
def Node.handling (node : Node) : Bool :=
  node.threads.any fun thread =>
    match thread with
    | .appendHandler _ _ => true
    | _ => false

/--
The act raises the term of the node or makes it a candidate or a leader: a
timeout that fires, a won election, or a message of a higher term.
-/
def Node.disturbs
    (node : Node)
    (act : Act) :
    Bool :=
  node.demotes act || node.fires act || node.wins act

/-- A follower that is not disturbed stays a follower of its term. -/
theorem Node.Step.undisturbed
    {mapped : Nat → Prop}
    {node after : Node}
    {act : Act}
    {outputs : Outputs}
    (step : node.Step mapped act after outputs)
    (noRestart : ∀ kernel cacheLost, act ≠ .restart kernel cacheLost)
    (calm : node.disturbs act = false)
    (follower : node.view.role = .follower) :
    after.view.role = .follower ∧ after.view.term = node.view.term := by
  simp only [Node.disturbs, Bool.or_eq_false_iff] at calm
  have notDown : node.stepsDown act = false := by
    cases act <;> simp [Node.stepsDown, follower]
  have kept := step.keeps_role noRestart calm.1.1 calm.1.2 calm.2 notDown
  exact ⟨kept.1.trans follower, kept.2⟩

/--
The event is an acknowledgement only in the follower state of the request's
term, and no vote was granted in a higher term before it.
-/
def Event.Fenced
    (earlier : List Event) :
    Event → Prop
  | .appendAccepted req state term =>
      state = .follower ∧ term = req.term ∧
        ∀ grantTerm candidateId,
          .voteGranted grantTerm candidateId ∈ earlier →
          grantTerm ≤ req.term
  | _ => True

/-- Every acknowledgement of the history is fenced. -/
abbrev Fenced (history : List Event) : Prop :=
  Everywhere Event.Fenced history

/-- A new event of the append handler, if there is one, is fenced. -/
theorem fenced_acceptEvents
    {before after : View}
    {req : AppendEntriesRequest}
    {success : Bool}
    {history : List Event}
    (rest : Fenced history)
    (acts :
      success = true ∨ after.log.length ≠ before.log.length ∨
        after.commit ≠ before.commit →
      after.role = .follower ∧ after.term = req.term ∧
        ∀ grantTerm candidateId,
          .voteGranted grantTerm candidateId ∈ history →
          grantTerm ≤ req.term) :
    Fenced (acceptEvents before after req success ++ history) := by
  unfold acceptEvents
  split
  · rename_i acted
    exact everywhere_cons (acts acted) rest
  · exact rest

/-- What a run keeps about terms. -/
structure Node.Fence (node : Node) : Prop where
  handlers :
    ∀ src pending,
      .appendHandler src pending ∈ node.threads →
      node.view.role = .follower ∧ node.view.term = pending.req.term
  grants :
    ∀ grantTerm candidateId,
      .voteGranted grantTerm candidateId ∈ node.history →
      grantTerm ≤ node.view.term
  fenced : Fenced node.history

theorem Node.handling_of_mem
    {node : Node}
    {src : Nat}
    {pending : PendingAppend}
    (held : .appendHandler src pending ∈ node.threads) :
    node.handling = true :=
  List.any_eq_true.mpr ⟨_, held, rfl⟩

theorem mem_acceptEvents
    {before after : View}
    {req : AppendEntriesRequest}
    {success : Bool}
    {grantTerm candidateId : Nat} :
    .voteGranted grantTerm candidateId ∉
      acceptEvents before after req success := by
  unfold acceptEvents
  split <;> simp

/-- Where the grants of a history come from. -/
theorem Node.Step.grant_origin
    {mapped : Nat → Prop}
    {node after : Node}
    {act : Act}
    {outputs : Outputs}
    {grantTerm candidateId : Nat}
    (step : node.Step mapped act after outputs)
    (held : .voteGranted grantTerm candidateId ∈ after.history) :
    .voteGranted grantTerm candidateId ∈ node.history ∨
      ∃ src req,
        act = .handleVote src req ∧
          grantTerm = (node.view.voteResponse req).term ∧
            candidateId = req.candidateId ∧
              (node.view.voteResponse req).voteGranted = true ∧
                after.view = node.view.voted req ∧
                  (src, .voteResponse req (node.view.voteResponse req)) ∈
                    outputs := by
  cases step with
  | electionWon _ _ _ => simpa using held
  | electionThrew _ _ _ => simpa using held
  | voteSent _ => simpa using held
  | appendCopying _ _ _ => simpa using held
  | appendSent _ _ _ => simpa using held
  | @voteHandled src req =>
      rcases List.mem_append.mp held with new | old
      · unfold grantEvents at new
        split at new
        · rename_i granted
          simp only [List.mem_singleton, Event.voteGranted.injEq] at new
          exact Or.inr ⟨src, req, rfl, new.1, new.2, granted, rfl, by simp⟩
        · cases new
      · exact Or.inl old
  | appendReplied _ =>
      rcases List.mem_append.mp held with new | old
      · exact absurd new mem_acceptEvents
      · exact Or.inl old
  | appendHandlerThrew _ =>
      rcases List.mem_append.mp held with new | old
      · exact absurd new mem_acceptEvents
      · exact Or.inl old
  | appendFinished _ _ =>
      rcases List.mem_append.mp held with new | old
      · exact absurd new mem_acceptEvents
      · exact Or.inl old
  | appendFinishThrew _ =>
      rcases List.mem_append.mp held with new | old
      · exact absurd new mem_acceptEvents
      · exact Or.inl old
  | restarted => simpa using held
  | restartThrew => simpa using held
  | _ => exact Or.inl held

theorem View.voted_term
    (view : View)
    (req : RequestVoteRequest) :
    (view.voted req).term = (view.voteResponse req).term := by
  unfold View.voted View.voteResponse
  dsimp only
  split <;> rfl

/-- What the first section did, seen from the history. -/
theorem View.Handled.acts
    {view after : View}
    {req : AppendEntriesRequest}
    {result : Option AppendProgress}
    {success : Bool}
    (handled : view.Handled req result after)
    (reported :
      success = true →
        ∃ rsp, result = some (.replied rsp) ∧ rsp.success = true)
    (acted :
      success = true ∨ after.log.length ≠ view.log.length ∨
        after.commit ≠ view.commit) :
    after.role = .follower ∧ after.term = req.term := by
  have unchanged :
      view.Revoted after → success = false →
        after.role = .follower ∧ after.term = req.term := by
    rintro ⟨term, role, votes, rfl⟩ failed
    simp [failed] at acted
  cases handled with
  | demotionThrew _ =>
      refine unchanged (view.revoted_bump req.term) ?_
      by_contra succeeded
      obtain ⟨rsp, impossible, -⟩ := reported (by simpa using succeeded)
      cases impossible
  | @refused rsp failed _ =>
      refine unchanged (view.revoted_meet req.term) ?_
      by_contra succeeded
      obtain ⟨other, same, success⟩ := reported (by simpa using succeeded)
      cases same
      rw [failed] at success
      cases success
  | followed accepts _ _ =>
      exact ⟨accepts.follower, accepts.sameTerm.symm⟩
  | copying accepts _ _ =>
      exact ⟨accepts.follower, accepts.sameTerm.symm⟩
  | completed accepts _ _ _ =>
      have same := (view.meet req.term).complete_ballot
        ((view.meet req.term).pending req)
      exact ⟨(congrArg Ballot.role same).trans accepts.follower,
        (congrArg Ballot.term same).trans accepts.sameTerm.symm⟩

/-- No restart, and no disturbance while a handler is between its sections. -/
def Node.keepsFence
    (node : Node)
    (act : Act) :
    Bool :=
  match act with
  | .restart _ _ => false
  | act => !(node.handling && node.disturbs act)

theorem Node.Step.fence
    {mapped : Nat → Prop}
    {node after : Node}
    {act : Act}
    {outputs : Outputs}
    (step : node.Step mapped act after outputs)
    (allowed : node.keepsFence act = true)
    (fence : node.Fence) :
    after.Fence := by
  have noRestart : ∀ kernel cacheLost, act ≠ .restart kernel cacheLost := by
    rintro kernel cacheLost rfl
    cases allowed
  have calm : node.handling = true → node.disturbs act = false := by
    intro handling
    unfold Node.keepsFence at allowed
    split at allowed
    · cases allowed
    · simpa [handling] using allowed
  have higher := step.term_le noRestart
  have grants :
      ∀ grantTerm candidateId,
        .voteGranted grantTerm candidateId ∈ after.history →
        grantTerm ≤ after.view.term := by
    intro grantTerm candidateId held
    rcases step.grant_origin held with
      old | ⟨src, req, -, sameTerm, -, -, viewed, -⟩
    · exact (fence.grants _ _ old).trans higher
    · rw [sameTerm, viewed]
      exact le_of_eq (View.voted_term _ _).symm
  refine ⟨?_, grants, ?_⟩
  · intro src pending held
    rcases step.thread_origin held with old | new
    · obtain ⟨follower, sameTerm⟩ := fence.handlers src pending old
      obtain ⟨stays, kept⟩ := step.undisturbed noRestart
        (calm (Node.handling_of_mem old)) follower
      exact ⟨stays, kept.trans sameTerm⟩
    · cases new with
      | appendHandler accepts _ viewed =>
          rw [viewed]
          exact ⟨accepts.follower, accepts.sameTerm.symm⟩
  · have handled :
        ∀ {req result view success},
          node.view.Handled req result view →
          view = after.view →
          after.history =
            acceptEvents node.view view req success ++ node.history →
          (success = true →
            ∃ rsp, result = some (.replied rsp) ∧ rsp.success = true) →
          Fenced after.history := by
      rintro req result view success handled rfl same reported
      rw [same]
      refine fenced_acceptEvents fence.fenced fun acted => ?_
      obtain ⟨follower, sameTerm⟩ := handled.acts reported acted
      refine ⟨follower, sameTerm, fun grantTerm candidateId held => ?_⟩
      rw [← sameTerm]
      exact (fence.grants _ _ held).trans higher
    have finished :
        ∀ {index src : Nat} {pending : PendingAppend} {view : View}
          {success : Bool},
          node.threads[index]? = some (.appendHandler src pending) →
          view.ballot = node.view.ballot →
          Fenced (acceptEvents node.view view pending.req success ++
            node.history) := by
      intro index src pending view success found same
      obtain ⟨follower, reqTerm⟩ :=
        fence.handlers src pending (List.mem_of_getElem? found)
      refine fenced_acceptEvents fence.fenced fun _ => ?_
      refine ⟨(congrArg Ballot.role same).trans follower,
        (congrArg Ballot.term same).trans reqTerm, ?_⟩
      rw [← reqTerm]
      exact fence.grants
    cases step with
    | electionWon _ _ _ => exact everywhere_cons trivial fence.fenced
    | electionThrew _ _ _ => exact everywhere_cons trivial fence.fenced
    | voteSent _ => exact everywhere_cons trivial fence.fenced
    | appendCopying _ _ _ => exact everywhere_cons trivial fence.fenced
    | appendSent _ _ _ => exact everywhere_cons trivial fence.fenced
    | voteHandled =>
        dsimp only
        unfold grantEvents
        split
        · exact everywhere_cons trivial fence.fenced
        · exact fence.fenced
    | appendReplied replied =>
        exact handled replied rfl rfl fun success => ⟨_, rfl, success⟩
    | appendHandlerThrew threw =>
        exact handled threw rfl rfl Bool.noConfusion
    | @appendFinished index src pending copied view found viewed =>
        refine finished found ?_
        rw [viewed]
        split
        · exact View.complete_ballot _ _
        · rfl
    | appendFinishThrew found =>
        exact finished found (View.complete_ballot _ _)
    | restarted => exact absurd rfl (noRestart _ _)
    | restartThrew => exact absurd rfl (noRestart _ _)
    | _ => exact fence.fenced

/--
The fencing condition on a step of a process; also, no timeout fires in the
largest term.
-/
def fenceKept
    (proc : Process)
    (input : WordInput) :
    Bool :=
  proc.node.keepsFence input.act && !proc.wrapsTerm input.act

/-- A fresh node has neither handlers nor a history. -/
theorem boot_fence
    {n : Nat}
    (members : Membership n)
    (settings : Fin n → Settings)
    (node : Fin n) :
    (members.boot settings node).node.Fence := by
  obtain ⟨halted, fresh⟩ := boot_node members settings node
  rw [fresh]
  refine ⟨?_, ?_, ?_⟩
  · intro src pending member
    cases member
  · intro grantTerm candidateId member
    cases member
  · exact everywhere_nil _

/-- A step within the condition keeps the fence, and the term a word. -/
theorem Process.fence_step
    {proc next : Process}
    {input : WordInput}
    (wellformed : proc.Wellformed)
    (fence : proc.node.Fence)
    (fits : proc.TermFits)
    (allowed : fenceKept proc input = true)
    (advanced : proc.advanceWord input = some next) :
    next.Wellformed ∧ next.node.Fence ∧ next.TermFits := by
  obtain ⟨keeps, unwrapped⟩ := Bool.and_eq_true_iff.mp allowed
  have noRestart :
      ∀ kernel cacheLost, input.act ≠ .restart kernel cacheLost := by
    intro kernel cacheLost act
    rw [act] at keeps
    cases keeps
  obtain ⟨result, stepped, rfl⟩ := Option.map_eq_some_iff.mp advanced
  obtain ⟨steps, stillFits⟩ := Process.stepWord_does wellformed fits noRestart
    (by simpa using unwrapped) stepped
  have does := Process.step_does wellformed steps
  exact ⟨Process.step_wellformed wellformed steps, does.fence keeps fence,
    stillFits⟩

/--
Term fencing: as long as the node is not disturbed while one of its append
handlers has released `mu`, and no timeout wraps the term, everything a
handler appends, commits or confirms happens in the follower state of the
request's term, and never for a term below one in which the node has already
granted its vote.
-/
theorem appends_are_fenced
    {n : Nat}
    {members : Membership n}
    {settings : Fin n → Settings}
    {node : Fin n}
    {inputs : List WordInput}
    {proc : Process}
    (run :
      runWhile fenceKept Process.advanceWord (members.boot settings node)
        inputs = some proc) :
    Fenced proc.history := by
  have kept : proc.Wellformed ∧ proc.node.Fence ∧ proc.TermFits := by
    refine runWhile_invariant
      (fun proc => proc.Wellformed ∧ proc.node.Fence ∧ proc.TermFits)
      (fun proc input next holds allowed advanced => ?_) ?_ run
    · obtain ⟨wellformed, fence, fits⟩ := holds
      exact Process.fence_step wellformed fence fits allowed advanced
    · exact ⟨boot_wellformed members settings node,
        boot_fence members settings node,
        boot_termFits members settings node⟩
  exact kept.2.1.fenced

/-- The request finishes before the vote of a higher term is asked for. -/
def appendThenVote : List WordInput :=
  [{ act := .handleAppend 1 firstEntryRequest },
   { act := .handleAppendFinish 0 true },
   { act := .handleVote 2
       { firstVoteRequest with
         term := 2, candidateId := 3, lastLogIndex := 1, lastLogTerm := 1 } }]

/-- A node may acknowledge and then vote. -/
theorem append_then_vote_is_fenced :
    ∃ proc,
      runWhile fenceKept Process.advanceWord firstNode appendThenVote =
          some proc ∧
        proc.history =
            [.voteGranted 2 3, .appendAccepted firstEntryRequest .follower 1] ∧
          Fenced proc.history := by
  obtain ⟨proc, run, acted⟩ :
      ∃ proc,
        runWhile fenceKept Process.advanceWord firstNode appendThenVote =
            some proc ∧
          decide (proc.history =
            [.voteGranted 2 3,
              .appendAccepted firstEntryRequest .follower 1]) = true :=
    runWhile_exists (by decide +kernel)
  exact ⟨proc, run, of_decide_eq_true acted, appends_are_fenced run⟩

/-- Every run without a restart is fenced. -/
def AppendsFenced (start : Process) : Prop :=
  ∀ inputs proc,
    runWhile
      (fun _ input =>
        match input.act with
        | .restart _ _ => false
        | _ => true) Process.advanceWord start inputs = some proc →
    Fenced proc.history

/-- The node votes in term 2 while the append of term 1 is copied. -/
def voteDuringAppend : List WordInput :=
  [{ act := .handleAppend 1 firstEntryRequest },
   { act := .handleVote 2
       { firstVoteRequest with term := 2, candidateId := 3 } },
   { act := .handleAppendFinish 0 true }]

/-- A node acknowledges an append of a term it has left by a vote. -/
theorem vote_during_append_not_fenced :
    ¬ AppendsFenced firstNode := by
  intro fenced
  obtain ⟨proc, run, acted⟩ :
      ∃ proc,
        runWhile
            (fun _ input =>
              match input.act with
              | .restart _ _ => false
              | _ => true) Process.advanceWord firstNode voteDuringAppend =
            some proc ∧
          decide (proc.history =
            [.appendAccepted firstEntryRequest .follower 2,
              .voteGranted 2 3]) = true :=
    runWhile_exists (by decide +kernel)
  have first := fenced voteDuringAppend proc run [] _ _
    (of_decide_eq_true acted)
  have impossible : (2 : Nat) = 1 := first.2.1
  cases impossible

end NvmeofRaft
