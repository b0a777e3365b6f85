import NvmeofRaft.RunRecord

namespace NvmeofRaft

/-!
# One step of the record

Every field of the record is kept by every step of the cluster that meets the
conditions.
-/

section

variable {n : Nat} {members : Membership n} {record later : Record n}
variable {cluster next : Cluster n} {move : Move n} {outputs : Outputs}

/-- What the moving node has when it ends the handling of a request. -/
structure Record.Taken
    (record later : Record n)
    (cluster next : Cluster n)
    (actor : Fin n)
    (req : AppendEntriesRequest) : Prop where
  origin : Origin record.line record.acked req
  term : (next.node actor).view.term = req.term
  follower : (next.node actor).view.role = .follower
  floor : (cluster.node actor).floor ≤ req.term
  front : (record.line req.term).take req.lastIndex <+: later.full actor
  full :
    later.full actor = record.full actor ∨
      0 < req.lastIndex ∧
        later.full actor = (record.line req.term).take req.lastIndex
  commit :
    (next.node actor).view.commit = (cluster.node actor).view.commit ∨
      (next.node actor).view.commit ≤ req.leaderCommit ∧
        (next.node actor).view.commit ≤ req.lastIndex

/-- The commit index that a request leaves. -/
theorem View.followCommit_le
    {view : View}
    {leaderCommit last : Nat}
    (bounded :
      leaderCommit ≤ view.commit ∨ min leaderCommit (view.tail - 1) ≤ last) :
    (view.followCommit leaderCommit).commit = view.commit ∨
      (view.followCommit leaderCommit).commit ≤ leaderCommit ∧
        (view.followCommit leaderCommit).commit ≤ last := by
  simp only [View.followCommit]
  split
  · omega
  · exact Or.inl rfl

namespace Record.Stepping

variable
  (stepping : Stepping members record cluster move next outputs later)

include stepping

/-- What a request carries follows the lines. -/
theorem carried_follows
    (term index : Nat) :
    Follows record.line ((record.line term).take index) :=
  (stepping.sound.votes.elections.line_follows term).of_front
    (List.take_prefix _ _)

/-- The tail of a node that keeps a log. -/
theorem tail_after
    (stays : move.act.isRestart = false) :
    (next.node move.node).view.tail = (later.full move.node).length + 1 := by
  rw [stepping.full_self]
  exact (stepping.step.holds stays (stepping.logging.holding stays).1
    (stepping.logging.matching.reach _) stepping.logging.unmoved).tail

/-- What is not in memory any more is committed. -/
theorem trimmed_front
    {term last index : Nat}
    (higher : (cluster.node move.node).view.term ≤ term)
    (below : index < (cluster.node move.node).view.oldest) :
    ((record.line term).take last).take index <+: record.full move.node := by
  by_cases won : cluster.Won term
  · have trimmed := (stepping.sound.settled move.node).trimmed
    have backed := stepping.sound.commits move.node
    have front := stepping.sound.votes.elections.front_of_backed
      (backed.mono (fun _ => List.prefix_rfl) (fun _ _ _ acks => acks) higher
        List.prefix_rfl) won
    rw [List.take_take]
    exact (List.take_prefix_take_left (by omega)).trans front
  · rw [stepping.sound.votes.elections.unwon term won]
    simp

/-- A request that confirms the log. -/
theorem taken_of_confirmed
    {src : Nat}
    {req : AppendEntriesRequest}
    (act : move.act = .handleAppend src req)
    (accepts : ((cluster.node move.node).view.meet req.term).Accepts req)
    (nothing : ¬ ((cluster.node move.node).view.meet req.term).Extends req)
    (viewed :
      (next.node move.node).view =
        ((cluster.node move.node).view.meet req.term).followCommit
          req.leaderCommit) :
    record.Taken later cluster next move.node req := by
  have stays : move.act.isRestart = false := by rw [act]; rfl
  have origin := stepping.sound.requests.sent _ req
    (stepping.logging.voting.moves.append_delivered act) rfl
  have revoted := (cluster.node move.node).view.revoted_meet req.term
  have confirms := stepping.confirms
  have floor := stepping.keepsFloor
  rw [act] at confirms floor
  simp only [Node.confirms, accepts, nothing, not_false_eq_true, and_self,
    decide_true, Bool.not_true, Bool.false_or] at confirms
  simp only [Node.keepsFloor, accepts, decide_true, Bool.not_true,
    Bool.false_or, decide_eq_true_eq] at floor
  have holds := (stepping.logging.holding stays).1.of_sameLog revoted.sameLog
  have oldest : ((cluster.node move.node).view.meet req.term).oldest =
      (cluster.node move.node).view.oldest := by
    obtain ⟨_, _, _, same⟩ := revoted
    rw [same]
    rfl
  have commit : ((cluster.node move.node).view.meet req.term).commit =
      (cluster.node move.node).view.commit := by
    obtain ⟨_, _, _, same⟩ := revoted
    rw [same]
  have term : (next.node move.node).view.term = req.term := by
    rw [viewed]
    exact accepts.sameTerm.symm
  have higher : (cluster.node move.node).view.term ≤ req.term := by
    rw [← term]
    exact stepping.step.term_le (Act.not_restart stays)
  have same : later.full move.node = record.full move.node :=
    stepping.full_same stays (by rw [viewed]; exact revoted.sameLog.log)
  refine ⟨origin, term, ?_, floor, ?_, Or.inl same, ?_⟩
  · rw [viewed]
    exact accepts.follower
  · rw [same]
    refine View.confirmed_front holds
      (stepping.logging.matching.follows _)
      (stepping.carried_follows _ _) (stepping.logging.matching.positive _)
      origin.carries origin.located ?_ accepts nothing confirms
    intro index below
    rw [oldest] at below
    exact stepping.trimmed_front higher below
  · rw [viewed, ← commit]
    simp only [View.confirmsBatch, Bool.and_eq_true, Bool.or_eq_true,
      decide_eq_true_eq] at confirms
    exact View.followCommit_le confirms.2

/-- A request whose entries have been appended. -/
theorem taken_of_complete
    {view : View}
    {pending : PendingAppend}
    (stays : move.act.isRestart = false)
    (origin : Origin record.line record.acked pending.req)
    (meets :
      pending.Meets (record.full move.node)
        ((record.line pending.req.term).take pending.req.lastIndex))
    (reaches : pending.Reaches)
    (fits : pending.Fits view)
    (agrees : view.skipAgrees pending = true)
    (sameLog : (cluster.node move.node).view.SameLog view)
    (sameCommit : view.commit = (cluster.node move.node).view.commit)
    (follower : view.role = .follower)
    (sameTerm : view.term = pending.req.term)
    (floor : (cluster.node move.node).floor ≤ pending.req.term)
    (viewed : (next.node move.node).view = view.complete pending) :
    record.Taken later cluster next move.node pending.req := by
  have holds := (stepping.logging.holding stays).1.of_sameLog sameLog
  have taken : later.full move.node =
      (record.line pending.req.term).take pending.req.lastIndex := by
    rw [stepping.extended]
    exact stepping.logging.completes holds (stepping.carried_follows _ _)
      origin.carries meets reaches fits agrees stays sameLog.log viewed
  have tail := stepping.tail_after stays
  rw [taken, origin.carries.length, viewed] at tail
  have ballot := view.complete_ballot pending
  have short : pending.skipEntries < pending.req.numEntries := reaches
  have positive : 0 < pending.req.lastIndex :=
    Nat.lt_of_lt_of_le (Nat.zero_lt_of_lt short) (Nat.le_add_left _ _)
  refine ⟨origin, ?_, ?_, floor, ?_, Or.inr ⟨positive, taken⟩, ?_⟩
  · rw [viewed]
    exact (congrArg Ballot.term ballot).trans sameTerm
  · rw [viewed]
    exact (congrArg Ballot.role ballot).trans follower
  · rw [taken]
  · have bounded :
        (view.build pending.req pending.newTail pending.skipEntries).tail =
          pending.req.lastIndex + 1 :=
      tail
    have commit := @View.followCommit_le
      (view.build pending.req pending.newTail pending.skipEntries)
      pending.req.leaderCommit pending.req.lastIndex (Or.inr (by omega))
    rw [View.build_commit, sameCommit] at commit
    rw [viewed]
    exact commit

/-- What a step takes over it has from the leader of the request. -/
theorem taken
    {req : AppendEntriesRequest}
    (takes :
      (cluster.node move.node).TakesOver (next.node move.node) move.act req) :
    record.Taken later cluster next move.node req := by
  generalize act : move.act = moved at takes
  cases takes with
  | confirmed accepts nothing viewed =>
      exact stepping.taken_of_confirmed act accepts nothing viewed
  | @completed src req accepts brings copied viewed =>
      have stays : move.act.isRestart = false := by rw [act]; rfl
      have origin := stepping.sound.requests.sent _ req
        (stepping.logging.voting.moves.append_delivered act) rfl
      have revoted := (cluster.node move.node).view.revoted_meet req.term
      have holds := (stepping.logging.holding stays).1.of_sameLog
        revoted.sameLog
      have floor := stepping.keepsFloor
      have agrees := stepping.logging.agrees
      rw [act] at floor agrees
      simp only [Node.keepsFloor, accepts, decide_true, Bool.not_true,
        Bool.false_or, decide_eq_true_eq] at floor
      simp only [Node.skipsAgree, accepts, brings, copied, and_self,
        decide_true, Bool.not_true, Bool.false_or] at agrees
      refine stepping.taken_of_complete stays origin ?_
        (View.pending_reaches brings) (View.pending_fits ?_ accepts) agrees
        revoted.sameLog ?_ accepts.follower accepts.sameTerm.symm floor viewed
      · exact View.pending_meets holds (stepping.logging.matching.follows _)
          (stepping.carried_follows _ _)
          (stepping.logging.matching.positive _) origin.carries accepts
      · rw [holds.tail]
        exact Nat.succ_pos _
      · obtain ⟨_, _, _, same⟩ := revoted
        rw [same]
  | @finished index src pending found viewed =>
      have stays : move.act.isRestart = false := by rw [act]; rfl
      have member := List.mem_of_getElem? found
      obtain ⟨origin, meets, floor⟩ :=
        stepping.sound.requests.handlers _ src pending member
      have confirms := stepping.confirms
      have agrees := stepping.logging.agrees
      have unmoved := stepping.logging.unmoved
      rw [act] at confirms agrees unmoved
      simp only [Node.confirms, found, decide_eq_true_eq] at confirms
      simp only [Node.skipsAgree, found] at agrees
      exact stepping.taken_of_complete stays origin meets
        (stepping.logging.matching.reach _ _ _ member)
        (Node.fits_of_tailUnmoved unmoved found) agrees ⟨rfl, rfl⟩ rfl
        confirms.1 confirms.2 floor viewed

/-- How the full log of a node that does not restart changes. -/
theorem full_cases
    (stays : move.act.isRestart = false) :
    later.full move.node = record.full move.node ∨
      (cluster.node move.node).wins move.act = true ∨
        ((cluster.node move.node).view.role = .leader ∧
          (next.node move.node).view.role = .leader ∧
            (next.node move.node).view.term =
              (cluster.node move.node).view.term ∧
              ∃ count,
                later.full move.node =
                  record.full move.node ++
                    List.replicate count
                      (cluster.node move.node).view.term) ∨
          ∃ req, record.Taken later cluster next move.node req := by
  rcases stepping.step.logEffect.takesOver stays with
    same | collects | wins | ⟨before, after, term, count, log⟩ | ⟨req, takes⟩
  · exact Or.inl (stepping.full_same stays same)
  · refine Or.inl ?_
    have effect := stepping.step.logEffect
    rw [stepping.full_self]
    rw [collects] at effect ⊢
    cases effect with
    | kept same =>
        exact Node.fullAfter_same rfl same.log
    | trimmed _ viewed =>
        exact Node.fullAfter_trimmed viewed
  · exact Or.inr (Or.inl wins)
  · refine Or.inr (Or.inr (Or.inl ⟨before, after, term, count, ?_⟩))
    rw [stepping.full_self, Node.fullAfter_grown stays log]
  · exact Or.inr (Or.inr (Or.inr ⟨req, stepping.taken takes⟩))

/-- A new leader has its log and the no-op entry. -/
theorem full_of_wins
    (wins : (cluster.node move.node).wins move.act = true) :
    later.full move.node =
      record.full move.node ++ [(cluster.node move.node).view.term] := by
  rw [stepping.full_self]
  exact Node.fullAfter_grown (Node.stays_of_wins wins)
    (stepping.step.won wins).2.2.2.2.1

/-- The line of the leader that moves. -/
theorem line_of_leader
    (leader : (next.node move.node).view.role = .leader) :
    later.line (next.node move.node).view.term = later.full move.node :=
  stepping.matching.leader move.node leader

/-- A leader has won its term. -/
theorem won_of_leader
    {member : Fin n}
    (leader : (cluster.node member).view.role = .leader) :
    cluster.Won (cluster.node member).view.term :=
  ⟨member, ((stepping.logging.matching.reign member).leading leader).2⟩

/-- The log of a leader is not empty. -/
theorem full_ne_nil
    {member : Fin n}
    (leader : (cluster.node member).view.role = .leader) :
    record.full member ≠ [] := by
  rw [← stepping.logging.matching.leader member leader]
  obtain ⟨count, shape⟩ :=
    stepping.sound.votes.elections.shape _ (stepping.won_of_leader leader)
  rw [shape]
  exact List.append_ne_nil_of_right_ne_nil _ (List.cons_ne_nil _ _)

/-- What a leader appends, or a winner. -/
theorem leads_pushes
    (leader : (next.node move.node).view.role = .leader) :
    (cluster.node move.node).view.role = .leader ∧
        (next.node move.node).view.term =
          (cluster.node move.node).view.term ∧
          (∃ count,
            later.full move.node =
              record.full move.node ++
                List.replicate count (cluster.node move.node).view.term) ∨
      (cluster.node move.node).wins move.act = true ∧
        (next.node move.node).view.term =
          (cluster.node move.node).view.term := by
  have stays := stepping.logging.voting.stays_of_leader leader
  rcases stepping.step.leads_or_wins (Act.not_restart stays) leader with
    ⟨before, term⟩ | won
  · refine Or.inl ⟨before, term, ?_⟩
    rcases stepping.full_cases stays with
      same | wins | ⟨-, -, -, pushed⟩ | ⟨req, taken⟩
    · exact ⟨0, by rw [same, List.replicate_zero, List.append_nil]⟩
    · exact ⟨1, stepping.full_of_wins wins⟩
    · exact pushed
    · have follower := taken.follower
      rw [leader] at follower
      cases follower
  · exact Or.inr won

/-- In a term without a leader the log of a node does not change. -/
theorem full_of_unled
    (stays : move.act.isRestart = false)
    (unled : later.line (next.node move.node).view.term = []) :
    later.full move.node = record.full move.node := by
  rcases stepping.full_cases stays with
    same | wins | ⟨before, after, -, pushed⟩ | ⟨req, taken⟩
  · exact same
  · rw [stepping.line_of_leader (stepping.step.won wins).1,
      stepping.full_of_wins wins] at unled
    exact absurd unled (List.append_ne_nil_of_right_ne_nil _
      (List.cons_ne_nil _ _))
  · obtain ⟨count, full⟩ := pushed
    rw [stepping.line_of_leader after, full] at unled
    exact absurd unled (List.append_ne_nil_of_left_ne_nil
      (stepping.full_ne_nil before) _)
  · rcases taken.full with same | ⟨positive, -⟩
    · exact same
    · rw [taken.term] at unled
      have inLine := taken.origin.lastIndex_le
      have grows := stepping.grows req.term
      rw [unled, List.prefix_nil] at grows
      rw [grows, List.length_nil] at inLine
      omega

end Record.Stepping

end

end NvmeofRaft
