import NvmeofRaft.Confirmation

namespace NvmeofRaft

/-!
# Completeness of leaders

Votes, logs, lines and acknowledgements are recorded beside the cluster.  Every
step extends the record; what the record keeps are the premises under which
acknowledged entries are in the lines of all later terms.
-/

section

variable {n : Nat}

/-- A term in which some node has become leader. -/
def Cluster.Won
    (cluster : Cluster n)
    (term : Nat) : Prop :=
  ∃ member, .becameLeader term ∈ (cluster.node member).history

/-- What is carried beside the cluster. -/
structure Record (n : Nat) where
  cast : Fin n → Nat → Nat → Prop
  full : Fin n → List Nat
  line : Nat → List Nat
  base : Nat → List Nat
  voterLog : Fin n → Nat → List Nat
  acked : Fin n → Nat → Nat → Prop

/-- The record at the start. -/
def Record.empty : Record n where
  cast := fun _ _ _ => False
  full := fun _ => []
  line := fun _ => []
  base := fun _ => []
  voterLog := fun _ _ => []
  acked := fun _ _ _ => False

/-- The voter has voted in the term. -/
def Record.Voted
    (record : Record n)
    (voter : Fin n)
    (term : Nat) : Prop :=
  ∃ candidateId, record.cast voter term candidateId

/-- The logs of the winners after a step. -/
def baseAfter
    (base : Nat → List Nat)
    (full : Fin n → List Nat)
    (cluster : Cluster n)
    (move : Move n) :
    Nat → List Nat :=
  if (cluster.node move.node).wins move.act then
    Function.update base (cluster.node move.node).view.term (full move.node)
  else
    base

/-- The vote of a view is not the one it had before. -/
def View.VotesAnew (before after : View) : Prop :=
  after.vote ≠ 0 ∧ ¬ (after.vote = before.vote ∧ after.term = before.term)

instance
    (before after : View) :
    Decidable (before.VotesAnew after) :=
  inferInstanceAs (Decidable (_ ∧ _))

/-- The logs of the voters after a step: a new vote is given with a log. -/
def voterLogAfter
    (voterLog : Fin n → Nat → List Nat)
    (full : Fin n → List Nat)
    (before after : View)
    (actor : Fin n) :
    Fin n → Nat → List Nat :=
  if before.VotesAnew after then
    Function.update voterLog actor
      (Function.update (voterLog actor) after.term (full actor))
  else
    voterLog

/-- A leader has acknowledged its own log, a follower what it confirms. -/
def ackedAfter
    (acked : Fin n → Nat → Nat → Prop)
    (full : Fin n → List Nat)
    (actor : Fin n)
    (after : View)
    (outputs : Outputs) :
    Fin n → Nat → Nat → Prop :=
  fun member term index =>
    acked member term index ∨
      member = actor ∧ term = after.term ∧
        (after.role = .leader ∧ index ≤ (full actor).length ∨
          ∃ dst req rsp,
            (dst, Payload.appendResponse req rsp) ∈ outputs ∧
              rsp.success = true ∧ index ≤ req.lastIndex)

/-- The record after a step. -/
def Record.after
    (record : Record n)
    (cluster : Cluster n)
    (move : Move n)
    (next : Cluster n)
    (outputs : Outputs) :
    Record n where
  cast := castAfter record.cast move.node next
  full := fullAfter record.full cluster move next
  line := lineAfter record.line (fullAfter record.full cluster move next)
    move.node next
  base := baseAfter record.base record.full cluster move
  voterLog := voterLogAfter record.voterLog
    (fullAfter record.full cluster move next)
    (cluster.node move.node).view (next.node move.node).view move.node
  acked := ackedAfter record.acked (fullAfter record.full cluster move next)
    move.node (next.node move.node).view outputs

/-- What is known of a request that a leader has built. -/
structure Origin
    (line : Nat → List Nat)
    (acked : Fin n → Nat → Nat → Prop)
    (req : AppendEntriesRequest) : Prop where
  carries : Carries req ((line req.term).take req.lastIndex)
  located : 0 < req.numEntries → req.leaderPbaSrc ≠ 0
  committed : Backed line acked req.term req.leaderCommit (line req.term)

/-- The votes fit the logs and the terms of the nodes. -/
structure Record.Votes
    (members : Membership n)
    (record : Record n)
    (cluster : Cluster n) : Prop where
  elections :
    Elections record.line record.base cluster.Won record.Voted
      record.voterLog record.acked
  bounded :
    ∀ member term,
      term ∈ record.full member → term ≤ (cluster.node member).view.term
  castTerm :
    ∀ voter term candidate,
      record.cast voter term (members.ids candidate) →
      term ≤ (cluster.node candidate).horizon
  bids :
    ∀ candidate voter,
      (cluster.node candidate).view.vote = members.ids candidate →
      record.line (cluster.node candidate).view.term = [] →
      record.cast voter (cluster.node candidate).view.term
        (members.ids candidate) →
      EndsLater (record.full candidate)
        (record.voterLog voter (cluster.node candidate).view.term)
  asked :
    ∀ message req candidate,
      message ∈ cluster.net →
      message.payload = .voteRequest req →
      req.candidateId = members.ids candidate →
      req.term ≤ (cluster.node candidate).horizon ∧
        (req.term = (cluster.node candidate).view.term →
          (cluster.node candidate).view.vote = members.ids candidate →
          record.line req.term = [] →
          req.lastLogIndex = (record.full candidate).length ∧
            req.lastLogTerm = (record.full candidate).getLastD 0)

/-- The requests under way come from leaders. -/
structure Record.Requests
    (record : Record n)
    (cluster : Cluster n) : Prop where
  sent :
    ∀ message req,
      message ∈ cluster.net →
      message.payload = .appendRequest req →
      Origin record.line record.acked req
  copies :
    ∀ member fi call,
      .leaderCopy fi call ∈ (cluster.node member).threads →
      Origin record.line record.acked call.req
  handlers :
    ∀ member src pending,
      .appendHandler src pending ∈ (cluster.node member).threads →
      Origin record.line record.acked pending.req ∧
        pending.Meets (record.full member)
          ((record.line pending.req.term).take pending.req.lastIndex) ∧
          (cluster.node member).floor ≤ pending.req.term
  calls :
    ∀ member thread fi call,
      thread ∈ (cluster.node member).threads →
      thread.call? = some (fi, call) →
      call.req.lastIndex = max (call.next + call.lenEntries) 1 - 1 ∧
        call.req.lastIndex ≤ (record.full member).length ∧
          ((cluster.node member).view.role = .leader →
            call.req.term = (cluster.node member).view.term ∨
              call.req.lastIndex ≤
                (record.base (cluster.node member).view.term).length)

/-- The acknowledgements are of entries that are still there. -/
structure Record.Acks
    (record : Record n)
    (cluster : Cluster n) : Prop where
  closed :
    ∀ member term index smaller,
      record.acked member term index →
      smaller ≤ index →
      record.acked member term smaller
  kept :
    ∀ member term index,
      record.acked member term index →
      index ≤ (record.line term).length ∧
        ((cluster.node member).retired = false →
          (record.line term).take index <+: record.full member)
  answered :
    ∀ message req rsp,
      message ∈ cluster.net →
      message.payload = .appendResponse req rsp →
      rsp.success = true →
      ∃ member : Fin n,
        message.src = member ∧ record.acked member req.term req.lastIndex
  progress :
    ∀ leader peer : Fin n,
      (cluster.node leader).view.role = .leader →
      (cluster.node leader).halted = false →
      peer ≠ leader →
      ∀ index,
        (cluster.node leader).view.Reached peer index →
        (record.base (cluster.node leader).view.term).length < index →
        record.acked peer (cluster.node leader).view.term index
  leading :
    ∀ leader,
      (cluster.node leader).view.role = .leader →
      record.acked leader (cluster.node leader).view.term
        (record.full leader).length

/-- What the record, the nodes and the messages have in common. -/
structure Record.Sound
    (members : Membership n)
    (record : Record n)
    (cluster : Cluster n) : Prop where
  votes : record.Votes members cluster
  requests : record.Requests cluster
  acks : record.Acks cluster
  commits :
    ∀ member,
      Backed record.line record.acked (cluster.node member).view.term
        (cluster.node member).view.commit (record.full member)
  settled : ∀ member, (cluster.node member).view.Settled

end

section

variable {n : Nat} {line line' : Nat → List Nat}
variable {acked acked' : Fin n → Nat → Nat → Prop}
variable {req : AppendEntriesRequest}

/-- The line reaches to the end of the request. -/
theorem Origin.lastIndex_le
    (origin : Origin line acked req) :
    req.lastIndex ≤ (line req.term).length := by
  have length := origin.carries.length
  rw [List.length_take] at length
  omega

theorem Origin.mono
    (origin : Origin line acked req)
    (grows : ∀ term, line term <+: line' term)
    (more : ∀ member term index, acked member term index →
      acked' member term index) :
    Origin line' acked' req where
  carries := by
    rw [take_of_front (grows req.term) origin.lastIndex_le]
    exact origin.carries
  located := origin.located
  committed := origin.committed.mono grows more (le_refl _) (grows req.term)

/-- The leader's copy of the data leaves the request as it is. -/
theorem Origin.copied
    {call : AppendCall}
    (origin : Origin line acked call.req) :
    Origin line acked call.copied.req :=
  ⟨origin.carries.copied, origin.located, origin.committed⟩

end

section

variable {n : Nat} {members : Membership n} {record later : Record n}
variable {cluster next : Cluster n} {move : Move n} {outputs : Outputs}

/-- What the step lemmas know. -/
structure Record.Stepping
    (members : Membership n)
    (record : Record n)
    (cluster : Cluster n)
    (move : Move n)
    (next : Cluster n)
    (outputs : Outputs)
    (later : Record n) : Prop where
  logging :
    Matching.Stepping members record.cast record.full record.line cluster move
      next outputs
  sound : record.Sound members cluster
  asLeader : (cluster.node move.node).sendsAsLeader move.act = true
  confirms : (cluster.node move.node).confirms move.act = true
  keepsFloor : (cluster.node move.node).keepsFloor move.act = true
  extended : later = record.after cluster move next outputs

namespace Record.Stepping

variable
  (stepping : Stepping members record cluster move next outputs later)

include stepping

theorem step :
    (cluster.node move.node).Step (cluster.procs move.node).mapped move.act
      (next.node move.node) outputs :=
  stepping.logging.step

theorem node_other
    {member : Fin n}
    (other : member ≠ move.node) :
    next.node member = cluster.node member :=
  stepping.logging.voting.moves.node_other other

theorem matching :
    Matching later.full later.line next := by
  rw [stepping.extended]
  exact Matching.step stepping.logging

theorem ballots :
    Ballots members later.cast next := by
  rw [stepping.extended]
  exact Ballots.step stepping.logging.voting

/-- Lines grow. -/
theorem grows
    (term : Nat) :
    record.line term <+: later.line term := by
  rw [stepping.extended]
  exact stepping.logging.grows term

theorem casts
    (voter : Fin n)
    (term candidateId : Nat)
    (given : record.cast voter term candidateId) :
    later.cast voter term candidateId := by
  rw [stepping.extended]
  exact Or.inl given

/-- What has been acknowledged stays so. -/
theorem acked_mono
    (member : Fin n)
    (term index : Nat)
    (acks : record.acked member term index) :
    later.acked member term index := by
  rw [stepping.extended]
  exact Or.inl acks

theorem full_other
    {member : Fin n}
    (other : member ≠ move.node) :
    later.full member = record.full member := by
  rw [stepping.extended]
  exact fullAfter_other other

theorem full_self :
    later.full move.node =
      (cluster.node move.node).fullAfter move.act (next.node move.node)
        (record.full move.node) := by
  rw [stepping.extended]
  exact fullAfter_self

/-- The log of a node that does not restart grows. -/
theorem full_mono
    (stays : move.act.isRestart = false)
    (member : Fin n) :
    record.full member <+: later.full member := by
  by_cases here : member = move.node
  · subst here
    rw [stepping.full_self]
    exact Node.prefix_fullAfter stays
  · rw [stepping.full_other here]

/-- A restarted node starts over. -/
theorem full_restarted
    (restarts : move.act.isRestart = true) :
    later.full move.node = [] := by
  rw [stepping.full_self]
  exact Node.fullAfter_restart restarts

theorem full_same
    (stays : move.act.isRestart = false)
    (same :
      (next.node move.node).view.log = (cluster.node move.node).view.log) :
    later.full move.node = record.full move.node := by
  rw [stepping.full_self]
  exact Node.fullAfter_same stays same

theorem won_mono
    {term : Nat}
    (won : cluster.Won term) :
    next.Won term := by
  obtain ⟨member, became⟩ := won
  refine ⟨member, ?_⟩
  by_cases here : member = move.node
  · subst here
    exact stepping.step.history_mono became
  · rw [stepping.node_other here]
    exact became

/-- A won term had been won before, or is being won. -/
theorem won_origin
    {term : Nat}
    (won : next.Won term) :
    cluster.Won term ∨
      (cluster.node move.node).wins move.act = true ∧
        term = (cluster.node move.node).view.term := by
  obtain ⟨member, became⟩ := won
  by_cases here : member = move.node
  · subst here
    rcases stepping.step.leader_event became with old | ⟨wins, same, -⟩
    · exact Or.inl ⟨_, old⟩
    · exact Or.inr ⟨wins, same⟩
  · rw [stepping.node_other here] at became
    exact Or.inl ⟨_, became⟩

theorem not_won_of_wins
    (wins : (cluster.node move.node).wins move.act = true) :
    ¬ cluster.Won (cluster.node move.node).view.term := by
  rintro ⟨member, became⟩
  exact stepping.logging.voting.not_won_before
    (stepping.logging.matching.reign _) wins member became

theorem base_of_won
    {term : Nat}
    (won : cluster.Won term) :
    later.base term = record.base term := by
  rw [stepping.extended]
  show baseAfter record.base record.full cluster move term = _
  unfold baseAfter
  split
  · rename_i wins
    rw [Function.update_of_ne]
    rintro rfl
    exact stepping.not_won_of_wins wins won
  · rfl

theorem base_of_wins
    (wins : (cluster.node move.node).wins move.act = true) :
    later.base (cluster.node move.node).view.term =
      record.full move.node := by
  rw [stepping.extended]
  show baseAfter record.base record.full cluster move _ = _
  rw [baseAfter, if_pos wins, Function.update_self]

/-- Only the line of the acting leader changes. -/
theorem line_cases
    (term : Nat) :
    later.line term = record.line term ∨
      (next.node move.node).view.role = .leader ∧
        term = (next.node move.node).view.term := by
  rw [stepping.extended]
  show lineAfter record.line (fullAfter record.full cluster move next)
      move.node next term = _ ∨ _
  unfold lineAfter
  split
  · rename_i leader
    by_cases here : term = (next.node move.node).view.term
    · exact Or.inr ⟨leader, here⟩
    · exact Or.inl (Function.update_of_ne here _ _)
  · exact Or.inl rfl

/-- A vote is an old one, or a new one of the moving node. -/
theorem cast_origin
    {voter : Fin n}
    {term candidateId : Nat}
    (given : later.cast voter term candidateId) :
    record.cast voter term candidateId ∨
      voter = move.node ∧ term = (next.node move.node).view.term ∧
        candidateId = (next.node move.node).view.vote ∧
          (cluster.node move.node).view.VotesAnew
            (next.node move.node).view := by
  rw [stepping.extended] at given
  rcases given with old | ⟨rfl, voted, rfl, rfl⟩
  · exact Or.inl old
  · by_cases kept :
        (next.node move.node).view.vote = (cluster.node move.node).view.vote ∧
          (next.node move.node).view.term = (cluster.node move.node).view.term
    · rw [kept.1] at voted ⊢
      rw [kept.2]
      exact Or.inl (stepping.logging.voting.ballots.held _ voted)
    · exact Or.inr ⟨rfl, rfl, rfl, voted, kept⟩

/-- Within the term of a given vote no other one is given. -/
theorem not_anew
    {candidateId : Nat}
    (before :
      record.cast move.node (next.node move.node).view.term candidateId) :
    ¬ (cluster.node move.node).view.VotesAnew (next.node move.node).view := by
  rintro ⟨voted, fresh⟩
  have voting := stepping.logging.voting
  have active := voting.active_of_vote voted
  have noRestart := Act.not_restart (voting.stays_of_active active)
  rw [stepping.step.retired_eq noRestart] at active
  have bound := voting.ballots.past _ _ _ before
  rw [Node.horizon_of_active active] at bound
  rcases stepping.step.vote_kept noRestart voting.listed voting.sameIndex
    (voting.ballots.peers _) with higher | ⟨same, vote⟩
  · exact absurd bound (Nat.not_le.mpr higher)
  · rw [same] at before
    have given := voting.ballots.current _ _ active before
    rcases vote with free | kept
    · exact absurd (given.symm.trans free)
        (voting.ballots.named _ _ _ before)
    · exact fresh ⟨kept, same⟩

/-- A vote that was given stays recorded with its log. -/
theorem voterLog_kept
    {voter : Fin n}
    {term candidateId : Nat}
    (given : record.cast voter term candidateId) :
    later.voterLog voter term = record.voterLog voter term := by
  rw [stepping.extended]
  show voterLogAfter record.voterLog
      (fullAfter record.full cluster move next) _ _ move.node voter term = _
  unfold voterLogAfter
  split
  · rename_i fresh
    by_cases here : voter = move.node
    · subst here
      rw [Function.update_self]
      by_cases now : term = (next.node move.node).view.term
      · subst now
        exact absurd fresh (stepping.not_anew given)
      · rw [Function.update_of_ne now]
    · rw [Function.update_of_ne here]
  · rfl

/-- The log a new vote is given with. -/
theorem voterLog_new
    (fresh :
      (cluster.node move.node).view.VotesAnew (next.node move.node).view) :
    later.voterLog move.node (next.node move.node).view.term =
      later.full move.node := by
  rw [stepping.extended]
  show voterLogAfter record.voterLog
      (fullAfter record.full cluster move next) _ _ move.node move.node _ = _
  unfold voterLogAfter
  rw [if_pos fresh, Function.update_self, Function.update_self]
  rfl

/-- An acknowledgement is an old one, or a new one of the moving node. -/
theorem acked_origin
    {member : Fin n}
    {term index : Nat}
    (acks : later.acked member term index) :
    record.acked member term index ∨
      member = move.node ∧ term = (next.node move.node).view.term ∧
        ((next.node move.node).view.role = .leader ∧
            index ≤ (later.full move.node).length ∨
          ∃ req,
            (cluster.node move.node).TakesOver (next.node move.node) move.act
                req ∧
              index ≤ req.lastIndex) := by
  rw [stepping.extended] at acks ⊢
  rcases acks with old | ⟨rfl, rfl, leads | ⟨dst, req, rsp, sent, success, le⟩⟩
  · exact Or.inl old
  · exact Or.inr ⟨rfl, rfl, Or.inl leads⟩
  · exact Or.inr ⟨rfl, rfl,
      Or.inr ⟨req, stepping.step.success_takesOver sent success, le⟩⟩

end Record.Stepping

end

end NvmeofRaft
