import NvmeofRaft.TermFence

namespace NvmeofRaft

/-!
# Message authenticity

`main_loop` reads the role in one section, the workers are spawned in another
one and each of them fills its request in a third.  The request speaks for
the role that was read when no demotion, and for vote requests no won
election, falls between the three.
-/

/-- A worker that will build an append request. -/
def Thread.appends : Thread → Bool
  | .appendWorker _ => true
  | .applier => true
  | _ => false

/-- A worker that will build a vote request. -/
def Thread.asksVotes : Thread → Bool
  | .voteWorker _ => true
  | _ => false

/-- `main_loop` is on its way to spawn append workers. -/
def MainPc.appends : MainPc → Bool
  | .heartbeat => true
  | .appendEntries => true
  | _ => false

/-- `main_loop` is about to spawn vote workers. -/
def MainPc.asksVotes : MainPc → Bool
  | .requestVote _ => true
  | _ => false

/-- `main_loop` is in the branch of a leader. -/
def MainPc.leads : MainPc → Bool
  | .top => true
  | .heartbeat => true
  | .appendEntries => true
  | .advanceCommit => true
  | _ => false

namespace Node

/-- An append request will still be built. -/
def appendDue (node : Node) : Bool :=
  node.main.appends || node.threads.any Thread.appends

/-- A vote request will still be built. -/
def voteDue (node : Node) : Bool :=
  node.main.asksVotes || node.threads.any Thread.asksVotes

/--
No restart, no demotion while a request is due, and no end of the candidacy
while a vote request is due.
-/
def keepsRole
    (node : Node)
    (act : Act) :
    Bool :=
  match act with
  | .restart _ _ => false
  | act =>
      !((node.appendDue || node.voteDue) && node.demotes act) &&
        !(node.voteDue && (node.wins act || node.stepsDown act))

/-- What a run keeps about the role behind the requests that are due. -/
structure RoleKept (node : Node) : Prop where
  leading :
    node.view.role = .leader →
      (node.halted = true ∨ node.main.leads = true) ∧
        .becameLeader node.view.term ∈ node.history
  appending : node.appendDue = true → node.view.role = .leader
  asking : node.voteDue = true → node.view.role = .candidate
  voting : node.view.role = .candidate → node.view.vote = node.view.id

end Node

namespace View

variable {view : View}

/-- A candidate votes for itself. -/
theorem elect_vote
    (listed : view.index < view.votes.length) :
    view.elect.vote = view.id := by
  simp [View.elect, View.vote, listed]

/-- A vote that a named node has given to itself is not given away. -/
theorem withVote_own
    {candidateId : Nat}
    (named : view.id ≠ 0)
    (own : view.vote = view.id)
    (free : view.vote = 0 ∨ view.vote = candidateId) :
    (view.withVote candidateId).vote = view.id := by
  have same : candidateId = view.id := by
    rcases free with none | given
    · exact absurd (own.symm.trans none) named
    · exact given.symm.trans own
  have inside : view.index < view.votes.length := by
    by_contra outside
    have none : view.vote = 0 := by
      simp [View.vote, Nat.not_lt.mp outside]
    exact named (own.symm.trans none)
  simp [View.withVote, View.vote, inside, same]

/-- A vote is granted when none is given, or to the same candidate again. -/
theorem grants_free
    {req : RequestVoteRequest}
    (granted : view.grants req = true) :
    view.vote = 0 ∨ view.vote = req.candidateId := by
  simp only [View.grants, Bool.and_eq_true, Bool.or_eq_true,
    decide_eq_true_eq] at granted
  exact granted.2

theorem record_own
    {peerIndex : Nat}
    (own : view.vote = view.id) :
    (view.record peerIndex).vote = view.id := by
  by_cases other : peerIndex = view.index
  · subst other
    by_cases inside : view.index < view.votes.length
    · simp [View.record, View.vote, inside]
    · have same : (view.record view.index).vote = view.vote := by
        simp [View.record, View.vote, Nat.not_lt.mp inside]
      rw [same, own]
  · have same : (view.record peerIndex).vote = view.vote := by
      simp [View.record, View.vote, List.getD_eq_getElem?_getD,
        List.getElem?_set_ne other]
    rw [same, own]

/-- The own vote shows in the ballot. -/
theorem vote_of_ballot
    {other : View}
    (same : other.ballot = view.ballot)
    (sameIndex : other.index = view.index) :
    other.vote = view.vote := by
  have votes : other.votes = view.votes := congrArg Ballot.votes same
  rw [View.vote, View.vote, votes, sameIndex]

end View

section

variable {mapped : Nat → Prop} {node after : Node} {act : Act}
variable {outputs : Outputs}

/-- A candidate has its own vote. -/
theorem Node.Step.voting
    (step : node.Step mapped act after outputs)
    (noRestart : ∀ kernel cacheLost, act ≠ .restart kernel cacheLost)
    (named : node.view.id ≠ 0)
    (listed : node.view.index < node.view.votes.length)
    (sameIndex : after.view.index = node.view.index)
    (voting : node.view.role = .candidate → node.view.vote = node.view.id)
    (candidate : after.view.role = .candidate) :
    after.view.vote = node.view.id := by
  have effect := step.ballotEffect
  generalize same : after.view.ballot = ballot at effect
  have role : ballot.role = .candidate := by
    rw [← same]
    exact candidate
  cases effect with
  | kept =>
      rw [View.vote_of_ballot same sameIndex]
      exact voting role
  | demoted _ _ =>
      cases role
  | steppedDown _ _ =>
      cases role
  | elected _ =>
      rw [View.vote_of_ballot same sameIndex]
      exact View.elect_vote listed
  | recorded _ _ _ _ =>
      rw [View.vote_of_ballot same sameIndex]
      exact View.record_own (voting role)
  | @granted src req granted =>
      have sameView : node.view.bump req.term = node.view := by
        by_cases higher : node.view.term < req.term
        · rw [View.bump_of_lt higher] at role
          cases role
        · exact View.bump_of_le (Nat.not_lt.mp higher)
      rw [sameView] at same role granted
      rw [View.vote_of_ballot same sameIndex]
      exact View.withVote_own named (voting role) (View.grants_free granted)
  | won _ _ =>
      cases role
  | restarted _ =>
      exact absurd rfl (noRestart _ _)

/-- Histories grow. -/
theorem Node.Step.history_mono
    (step : node.Step mapped act after outputs)
    {event : Event}
    (held : event ∈ node.history) :
    event ∈ after.history := by
  cases step with
  | electionWon _ _ _ =>
      exact List.mem_cons_of_mem _ held
  | electionThrew _ _ _ =>
      exact List.mem_cons_of_mem _ held
  | voteSent _ =>
      exact List.mem_cons_of_mem _ held
  | appendCopying _ _ _ =>
      exact List.mem_cons_of_mem _ held
  | appendSent _ _ _ =>
      exact List.mem_cons_of_mem _ held
  | voteHandled =>
      exact List.mem_append_right _ held
  | appendReplied _ =>
      exact List.mem_append_right _ held
  | appendHandlerThrew _ =>
      exact List.mem_append_right _ held
  | appendFinished _ _ =>
      exact List.mem_append_right _ held
  | appendFinishThrew _ =>
      exact List.mem_append_right _ held
  | restarted =>
      exact List.mem_cons_of_mem _ held
  | restartThrew =>
      exact List.mem_cons_of_mem _ held
  | _ =>
      exact held

/-- A leader was one in the same term, or has just won. -/
theorem Node.Step.leads_or_wins
    (step : node.Step mapped act after outputs)
    (noRestart : ∀ kernel cacheLost, act ≠ .restart kernel cacheLost)
    (leader : after.view.role = .leader) :
    node.view.role = .leader ∧ after.view.term = node.view.term ∨
      node.wins act = true ∧ after.view.term = node.view.term := by
  have effect := step.ballotEffect
  generalize same : after.view.ballot = ballot at effect
  have role : ballot.role = .leader := by
    rw [← same]
    exact leader
  have term : after.view.term = ballot.term := congrArg Ballot.term same
  rw [term]
  cases effect with
  | kept =>
      exact Or.inl ⟨role, rfl⟩
  | demoted _ _ =>
      cases role
  | steppedDown _ _ =>
      cases role
  | elected _ =>
      cases role
  | recorded _ _ _ _ =>
      exact Or.inl ⟨role, rfl⟩
  | @granted src req granted =>
      by_cases higher : node.view.term < req.term
      · rw [View.bump_of_lt higher] at role
        cases role
      · rw [View.bump_of_le (Nat.not_lt.mp higher)] at role ⊢
        exact Or.inl ⟨role, rfl⟩
  | won pc won =>
      exact Or.inr ⟨by simp [Node.wins, pc, won], rfl⟩
  | restarted _ =>
      exact absurd rfl (noRestart _ _)

/-- A leader was one before, or has just won. -/
theorem Node.Step.leader_origin
    (step : node.Step mapped act after outputs)
    (noRestart : ∀ kernel cacheLost, act ≠ .restart kernel cacheLost)
    (leader : after.view.role = .leader) :
    node.view.role = .leader ∧ after.view.term = node.view.term ∨
      .becameLeader after.view.term ∈ after.history ∧
        (after.halted = true ∨ after.main.leads = true) := by
  rcases step.leads_or_wins noRestart leader with before | ⟨wins, sameTerm⟩
  · exact Or.inl before
  · rw [sameTerm]
    refine Or.inr ?_
    cases step with
    | electionWon _ _ _ =>
        exact ⟨List.mem_cons_self, Or.inr rfl⟩
    | electionThrew _ _ _ =>
        exact ⟨List.mem_cons_self, Or.inl rfl⟩
    | _ =>
        simp_all [Node.wins]

/-- The leader's branch of `main_loop` is left only by another role. -/
theorem Node.Step.main_leads
    (step : node.Step mapped act after outputs)
    (leads : node.main.leads = true)
    (leader : after.view.role = .leader) :
    after.main.leads = true := by
  cases step with
  | readLeader _ _ =>
      rfl
  | readOther _ other =>
      exact absurd leader other
  | heartbeat _ =>
      dsimp only
      split <;> rfl
  | spawnAppends _ =>
      rfl
  | commitKept _ =>
      rfl
  | commitRaised _ _ =>
      rfl
  | timeoutQuiet pc =>
      simp [pc, MainPc.leads] at leads
  | timeoutFired pc =>
      simp [pc, MainPc.leads] at leads
  | spawnVotes pc =>
      simp [pc, MainPc.leads] at leads
  | electionOpen _ _ =>
      rfl
  | electionWon _ _ _ =>
      rfl
  | restarted =>
      rfl
  | restartThrew =>
      rfl
  | _ =>
      exact leads

/-- How `main_loop` comes to spawn append workers. -/
theorem Node.Step.main_appends
    (step : node.Step mapped act after outputs)
    (appends : after.main.appends = true) :
    node.main.appends = true ∨
      node.view.role = .leader ∧ after.view = node.view := by
  cases step with
  | readLeader _ leader =>
      exact Or.inr ⟨leader, rfl⟩
  | heartbeat pc =>
      exact Or.inl (by rw [pc]; rfl)
  | readOther _ _ =>
      cases appends
  | timeoutQuiet _ =>
      rename_i state _ _
      cases state <;> cases appends
  | spawnVotes _ =>
      rename_i state _ _ _
      cases state <;> cases appends
  | _ =>
      first
      | exact Or.inl appends
      | cases appends

/-- How `main_loop` comes to spawn vote workers. -/
theorem Node.Step.main_asksVotes
    (step : node.Step mapped act after outputs)
    (asks : after.main.asksVotes = true) :
    node.main.asksVotes = true ∨ after.view = node.view.elect := by
  cases step with
  | timeoutFired _ =>
      exact Or.inr rfl
  | heartbeat _ =>
      rename_i expired _ _
      cases expired <;> cases asks
  | timeoutQuiet _ =>
      rename_i state _ _
      cases state <;> cases asks
  | spawnVotes _ =>
      rename_i state _ _ _
      cases state <;> cases asks
  | _ =>
      first
      | exact Or.inl asks
      | cases asks

/-- A thread that is about to send an append request makes one due. -/
theorem Node.appendDue_of_mem
    {thread : Thread}
    (held : thread ∈ node.threads)
    (appends : thread.appends = true) :
    node.appendDue = true := by
  rw [Node.appendDue, Bool.or_eq_true]
  exact Or.inr (List.any_eq_true.mpr ⟨thread, held, appends⟩)

/-- A thread that is about to send a vote request makes one due. -/
theorem Node.voteDue_of_mem
    {thread : Thread}
    (held : thread ∈ node.threads)
    (asks : thread.asksVotes = true) :
    node.voteDue = true := by
  rw [Node.voteDue, Bool.or_eq_true]
  exact Or.inr (List.any_eq_true.mpr ⟨thread, held, asks⟩)

/-- An append that is due was due before, or its sender leads. -/
theorem Node.Step.appendDue_origin
    (step : node.Step mapped act after outputs)
    (due : after.appendDue = true) :
    node.appendDue = true ∨ after.view.role = .leader := by
  rw [Node.appendDue, Bool.or_eq_true] at due
  rcases due with main | thread
  · rcases step.main_appends main with before | ⟨leader, same⟩
    · exact Or.inl (by rw [Node.appendDue, before, Bool.true_or])
    · exact Or.inr (by rw [same, leader])
  · obtain ⟨thread, held, appends⟩ := List.any_eq_true.mp thread
    rcases step.thread_origin held with old | new
    · exact Or.inl (Node.appendDue_of_mem old appends)
    · cases new with
      | heartbeatWorker _ pc =>
          exact Or.inl (by simp [Node.appendDue, pc, MainPc.appends])
      | commandWorker _ applier =>
          exact Or.inl (Node.appendDue_of_mem applier rfl)
      | applier leader =>
          cases step <;> exact Or.inr leader
      | _ =>
          cases appends

/-- A vote request that is due was due before, or its sender is a candidate. -/
theorem Node.Step.voteDue_origin
    (step : node.Step mapped act after outputs)
    (due : after.voteDue = true) :
    node.voteDue = true ∨ after.view.role = .candidate := by
  rw [Node.voteDue, Bool.or_eq_true] at due
  rcases due with main | thread
  · rcases step.main_asksVotes main with before | elected
    · exact Or.inl (by rw [Node.voteDue, before, Bool.true_or])
    · exact Or.inr (by rw [elected]; rfl)
  · obtain ⟨thread, held, asks⟩ := List.any_eq_true.mp thread
    rcases step.thread_origin held with old | new
    · exact Or.inl (Node.voteDue_of_mem old asks)
    · cases new with
      | voteWorker _ pc =>
          exact Or.inl (by simp [Node.voteDue, pc, MainPc.asksVotes])
      | _ =>
          cases asks

/-- A timeout that fires leaves a candidate. -/
theorem Node.Step.fired
    (step : node.Step mapped act after outputs)
    (fires : node.fires act = true) :
    after.view.role = .candidate := by
  cases step with
  | timeoutFired _ =>
      rfl
  | timeoutThrew _ =>
      rfl
  | _ =>
      simp_all [Node.fires]

/-- A leader whose `main_loop` leads neither times out nor wins. -/
theorem Node.leads_quiet
    (leads : node.main.leads = true)
    (act : Act) :
    node.fires act = false ∧ node.wins act = false := by
  cases act with
  | main expired load =>
      cases pc : node.main <;> simp [pc, MainPc.leads, Node.fires,
        Node.wins] at leads ⊢
  | _ =>
      exact ⟨rfl, rfl⟩

/-- A step inside the condition keeps the role of those threads. -/
theorem Node.Step.roleKept
    (step : node.Step mapped act after outputs)
    (running : node.halted = false)
    (allowed : node.keepsRole act = true)
    (named : node.view.id ≠ 0)
    (listed : node.view.index < node.view.votes.length)
    (sameId : after.view.id = node.view.id)
    (sameIndex : after.view.index = node.view.index)
    (kept : node.RoleKept) :
    after.RoleKept := by
  have noRestart : ∀ kernel cacheLost, act ≠ .restart kernel cacheLost := by
    rintro kernel cacheLost rfl
    cases allowed
  have allowed' :
      ((node.appendDue || node.voteDue) && node.demotes act) = false ∧
        (node.voteDue && (node.wins act || node.stepsDown act)) = false := by
    unfold Node.keepsRole at allowed
    split at allowed
    · cases allowed
    · simp only [Bool.and_eq_true, Bool.not_eq_true'] at allowed
      exact allowed
  obtain ⟨noDemotion, noEnd⟩ := allowed'
  refine ⟨?_, ?_, ?_, ?_⟩
  · intro leader
    rcases step.leader_origin noRestart leader with ⟨before, sameTerm⟩ | won
    · obtain ⟨branch, became⟩ := kept.leading before
      have leads : node.main.leads = true :=
        branch.resolve_left (by simp [running])
      refine ⟨Or.inr (step.main_leads leads leader), ?_⟩
      rw [sameTerm]
      exact step.history_mono became
    · exact ⟨won.2, won.1⟩
  · intro due
    rcases step.appendDue_origin due with before | leader
    · have leader := kept.appending before
      have leads : node.main.leads = true :=
        (kept.leading leader).1.resolve_left (by simp [running])
      have quiet := Node.leads_quiet leads act
      have notDown : node.stepsDown act = false := by
        cases act <;> simp [Node.stepsDown, leader]
      have notDemoted : node.demotes act = false := by
        simpa [before] using noDemotion
      exact (step.keeps_role noRestart notDemoted quiet.1 quiet.2
        notDown).1.trans leader
    · exact leader
  · intro due
    rcases step.voteDue_origin due with before | candidate
    · have candidate := kept.asking before
      have notDemoted : node.demotes act = false := by
        simpa [before] using noDemotion
      have noEnd' : node.wins act = false ∧ node.stepsDown act = false := by
        simpa [before] using noEnd
      by_cases fires : node.fires act = true
      · exact step.fired fires
      · exact (step.keeps_role noRestart notDemoted (by simpa using fires)
          noEnd'.1 noEnd'.2).1.trans candidate
    · exact candidate
  · intro candidate
    rw [sameId]
    exact step.voting noRestart named listed sameIndex kept.voting candidate

end

/--
The request was built by a leader that won the election of its term, or by a
candidate that has voted for itself.
-/
def Event.Authentic
    (earlier : List Event) :
    Event → Prop
  | .appendBuilt req state =>
      state = .leader ∧ .becameLeader req.term ∈ earlier
  | .voteBuilt req state vote =>
      state = .candidate ∧ vote = req.candidateId
  | _ => True

/-- The message has been built, as far as it is a request. -/
def Payload.BuiltIn
    (history : List Event) :
    Payload → Prop
  | .appendRequest req =>
      ∃ built state,
        .appendBuilt built state ∈ history ∧
          (req = built ∨ req = { built with dataAlreadyCopied := true })
  | .voteRequest req =>
      ∃ state vote, .voteBuilt req state vote ∈ history
  | _ => True

/-- A request that waits for the leader's copy has been built. -/
def Node.CopiesBuilt (node : Node) : Prop :=
  ∀ fi call,
    .leaderCopy fi call ∈ node.threads →
    ∃ state, .appendBuilt call.req state ∈ node.history

section

variable {mapped : Nat → Prop} {node after : Node} {act : Act}
variable {outputs : Outputs}

/-- What a step sends is in the sender's name. -/
theorem Node.Step.authentic
    (step : node.Step mapped act after outputs)
    (kept : node.RoleKept)
    (authentic : Everywhere Event.Authentic node.history) :
    Everywhere Event.Authentic after.history := by
  have built :
      ∀ {index fi : Nat} {call : AppendCall},
        node.threads[index]? = some (.appendWorker fi) →
        (node.view.clampNext fi).Built fi call →
        Everywhere Event.Authentic
          (.appendBuilt call.req node.view.role :: node.history) := by
    intro index fi call found built
    have leader := kept.appending
      (Node.appendDue_of_mem (List.mem_of_getElem? found) rfl)
    refine everywhere_cons ⟨leader, ?_⟩ authentic
    rw [built.sameTerm]
    exact (kept.leading leader).2
  have accepted :
      ∀ before after req success,
        Everywhere Event.Authentic
          (acceptEvents before after req success ++ node.history) := by
    intro before after req success
    unfold acceptEvents
    split
    · exact everywhere_cons trivial authentic
    · exact authentic
  cases step with
  | electionWon _ _ _ =>
      exact everywhere_cons trivial authentic
  | electionThrew _ _ _ =>
      exact everywhere_cons trivial authentic
  | voteSent found =>
      have candidate := kept.asking
        (Node.voteDue_of_mem (List.mem_of_getElem? found) rfl)
      exact everywhere_cons ⟨candidate, kept.voting candidate⟩ authentic
  | appendCopying found request _ =>
      exact built found request
  | appendSent found request _ =>
      exact built found request
  | voteHandled =>
      dsimp only
      unfold grantEvents
      split
      · exact everywhere_cons trivial authentic
      · exact authentic
  | appendReplied _ =>
      exact accepted _ _ _ _
  | appendHandlerThrew _ =>
      exact accepted _ _ _ _
  | appendFinished _ _ =>
      exact accepted _ _ _ _
  | appendFinishThrew _ =>
      exact accepted _ _ _ _
  | restarted =>
      exact everywhere_cons trivial authentic
  | restartThrew =>
      exact everywhere_cons trivial authentic
  | _ =>
      exact authentic

theorem Node.Step.copiesBuilt
    (step : node.Step mapped act after outputs)
    (copies : node.CopiesBuilt) :
    after.CopiesBuilt := by
  intro fi call held
  rcases step.thread_origin held with old | new
  · obtain ⟨state, built⟩ := copies fi call old
    exact ⟨state, step.history_mono built⟩
  · cases new with
    | leaderCopy _ _ _ built =>
        exact ⟨node.view.role, built⟩

/-- Every request that a step sends has been built. -/
theorem Node.Step.sent_built
    (step : node.Step mapped act after outputs)
    (copies : node.CopiesBuilt) :
    ∀ output, output ∈ outputs → output.2.BuiltIn after.history := by
  intro output sent
  cases step with
  | voteSent _ =>
      cases List.mem_singleton.mp sent
      exact ⟨node.view.role, node.view.vote, List.mem_cons_self⟩
  | @appendSent index fi call _ _ _ =>
      cases List.mem_singleton.mp sent
      exact ⟨call.req, node.view.role, List.mem_cons_self, Or.inl rfl⟩
  | @leaderCopied index fi call found =>
      cases List.mem_singleton.mp sent
      obtain ⟨state, built⟩ := copies fi call (List.mem_of_getElem? found)
      exact ⟨call.req, state, built, Or.inr rfl⟩
  | voteHandled =>
      cases List.mem_singleton.mp sent
      exact trivial
  | appendReplied _ =>
      cases List.mem_singleton.mp sent
      exact trivial
  | appendFinished _ _ =>
      cases List.mem_singleton.mp sent
      exact trivial
  | _ =>
      cases sent

end

/-- The authenticity condition on a step of a process. -/
def roleKept
    (proc : Process)
    (input : Input) :
    Bool :=
  proc.node.keepsRole input.act

/-- What a run keeps about requests. -/
structure Process.RequestsKept (proc : Process) : Prop where
  wellformed : proc.Wellformed
  named : proc.server.view.id ≠ 0
  listed : proc.server.view.index < proc.server.view.votes.length
  role : proc.node.RoleKept
  copies : proc.node.CopiesBuilt
  authentic : Everywhere Event.Authentic proc.history

/-- The identity of a node stays what it was. -/
theorem Process.step_identity
    {proc : Process}
    {outcomes : IoOutcomes}
    {act : Act}
    {result : Process × Outputs}
    (stepped : proc.step outcomes act = some result) :
    result.1.server.view.id = proc.server.view.id ∧
      result.1.server.view.index = proc.server.view.index ∧
        result.1.server.view.votes.length =
          proc.server.view.votes.length := by
  have same := Process.step_configuration stepped
  have members := congrArg (fun config => config.memberIds.length) same
  refine ⟨congrArg Configuration.id same,
    congrArg Configuration.clusterIndex same, ?_⟩
  simpa [Server.configuration, Server.view] using members

/-- Every step inside the condition keeps the requests in the sender's name. -/
theorem requestsKept_step
    {proc next : Process}
    {input : Input}
    (kept : proc.RequestsKept)
    (allowed : roleKept proc input = true)
    (advanced : proc.advance input = some next) :
    next.RequestsKept := by
  obtain ⟨result, stepped, rfl⟩ := Option.map_eq_some_iff.mp advanced
  obtain ⟨sameId, sameIndex, sameLength⟩ := Process.step_identity stepped
  have does := Process.step_does kept.wellformed stepped
  have running : proc.halted = false := by
    refine Process.running_of_step stepped ?_
    rintro kernel cacheLost same
    rw [roleKept, same] at allowed
    cases allowed
  refine ⟨Process.step_wellformed kept.wellformed stepped, ?_, ?_, ?_, ?_, ?_⟩
  · rw [sameId]
    exact kept.named
  · rw [sameIndex, sameLength]
    exact kept.listed
  · exact does.roleKept running allowed kept.named kept.listed sameId
      sameIndex kept.role
  · exact does.copiesBuilt kept.copies
  · exact does.authentic kept.role kept.authentic

/-- A booted process has sent nothing. -/
theorem boot_requestsKept
    {n : Nat}
    (members : Membership n)
    (settings : Fin n → Settings)
    (node : Fin n) :
    (members.boot settings node).RequestsKept := by
  obtain ⟨halted, fresh⟩ := boot_node members settings node
  have history : (members.boot settings node).history = [] :=
    congrArg Node.history fresh
  have view : (members.boot settings node).server.view =
      (members.freshNode node halted).view :=
    congrArg Node.view fresh
  have role : (members.freshNode node halted).view.role = .follower := by
    cases halted <;> rfl
  refine ⟨boot_wellformed members settings node, ?_, ?_, ?_, ?_, ?_⟩
  · rw [view]
    cases halted <;> exact members.nonzero node
  · rw [view]
    cases halted <;>
      simp [Membership.freshNode, Membership.constructedView, View.started]
  · rw [fresh]
    refine ⟨?_, ?_, ?_, ?_⟩
    · intro leader
      rw [role] at leader
      cases leader
    · intro due
      cases due
    · intro due
      cases due
    · intro candidate
      rw [role] at candidate
      cases candidate
  · rw [fresh]
    intro fi call held
    cases held
  · rw [history]
    exact everywhere_nil _

/--
Message authenticity: when no demotion falls between the reading of the role
and the filling of the requests it leads to, and no candidacy ends while vote
requests are due, every append request is built by a leader that has won its
term, every vote request by a candidate that has voted for itself, and
nothing is sent that was not built.
-/
theorem messages_are_authentic
    {n : Nat}
    {members : Membership n}
    {settings : Fin n → Settings}
    {node : Fin n}
    {inputs : List Input}
    {proc : Process}
    (run :
      runWhile roleKept Process.advance (members.boot settings node)
        inputs = some proc) :
    Everywhere Event.Authentic proc.history ∧
      ∀ input next outputs,
        roleKept proc input = true →
        proc.step input.outcomes input.act = some (next, outputs) →
        Everywhere Event.Authentic next.history ∧
          ∀ output, output ∈ outputs → output.2.BuiltIn next.history := by
  have kept : proc.RequestsKept :=
    runWhile_invariant Process.RequestsKept
      (fun _ _ _ kept allowed advanced =>
        requestsKept_step kept allowed advanced)
      (boot_requestsKept members settings node) run
  refine ⟨kept.authentic, fun input next outputs allowed stepped => ?_⟩
  have does := Process.step_does kept.wellformed stepped
  exact ⟨does.authentic kept.role kept.authentic,
    does.sent_built kept.copies⟩

/-- An election is won with one vote and the first heartbeat is built. -/
def wonElection : List Input :=
  [{ act := mainAct false }, { act := mainAct true }, { act := mainAct false },
   { act := .voteSend 0 }, { act := .voteSend 1 },
   { act := .voteReply 0 { term := 1, voteGranted := true } },
   { act := mainAct false }, { act := mainAct false }, { act := mainAct false },
   { act := mainAct false }, { act := mainAct false }, { act := mainAct true },
   { act := mainAct false }, { act := .appendSend 1 }]

/-- The requests of an undisturbed election are authentic. -/
theorem won_election_is_authentic :
    ∃ proc,
      runWhile roleKept Process.advance firstNode wonElection = some proc ∧
        proc.history.length = 4 ∧ .becameLeader 1 ∈ proc.history ∧
          Everywhere Event.Authentic proc.history := by
  obtain ⟨proc, run, passed⟩ :
      ∃ proc,
        runWhile roleKept Process.advance firstNode wonElection =
            some proc ∧
          decide (proc.history.length = 4 ∧
            .becameLeader 1 ∈ proc.history) = true :=
    runWhile_exists (by decide +kernel)
  have events := of_decide_eq_true passed
  exact ⟨proc, run, events.1, events.2, (messages_are_authentic run).1⟩

/-- Every run without a restart builds authentic requests only. -/
def MessagesAuthentic (start : Process) : Prop :=
  ∀ inputs proc,
    runWhile
      (fun _ input =>
        match input.act with
        | .restart _ _ => false
        | _ => true) Process.advance start inputs = some proc →
    Everywhere Event.Authentic proc.history

/-- A candidate is demoted before its vote workers run. -/
def demotedBeforeSend : List Input :=
  [{ act := mainAct false }, { act := mainAct true }, { act := mainAct false },
   { act := .handleVote 1 { firstVoteRequest with term := 2 } },
   { act := .voteSend 0 }]

/-- A follower asks for votes in a term in which it has voted for another. -/
theorem demoted_candidate_not_authentic :
    ¬ MessagesAuthentic firstNode := by
  intro authentic
  obtain ⟨proc, run, acted⟩ :
      ∃ proc,
        runWhile
            (fun _ input =>
              match input.act with
              | .restart _ _ => false
              | _ => true) Process.advance firstNode demotedBeforeSend =
            some proc ∧
          decide (proc.history =
            [.voteBuilt
                { term := 2
                  candidateId := 1
                  lastLogIndex := 0
                  lastLogTerm := 0 } .follower 2,
              .voteGranted 2 2]) = true :=
    runWhile_exists (by decide +kernel)
  have first := authentic demotedBeforeSend proc run [] _ _
    (of_decide_eq_true acted)
  cases first.1

end NvmeofRaft
