import NvmeofRaft.RecordedCommits

namespace NvmeofRaft

/-!
# Leader completeness

Over every run that meets the conditions, a leader has what earlier leaders
have committed, and no two nodes have committed different entries.
-/

section

variable {n : Nat} {members : Membership n} {record later : Record n}
variable {cluster next : Cluster n} {move : Move n}

/-- Nothing has been recorded at the start. -/
theorem start_sound
    (members : Membership n)
    (settings : Fin n → Settings) :
    Record.empty.Sound members (members.start settings) := by
  have fresh : ∀ member, ∃ halted,
      (members.start settings).node member =
        members.freshNode member halted :=
    fun member => boot_node members settings member
  have noThreads : ∀ member,
      ((members.start settings).node member).threads = [] := by
    intro member
    obtain ⟨halted, same⟩ := fresh member
    rw [same]
    rfl
  have noLeader : ∀ member,
      ((members.start settings).node member).view.role ≠ .leader := by
    intro member
    obtain ⟨halted, same⟩ := fresh member
    rw [same]
    cases halted <;> exact ServerState.noConfusion
  have noneWon : ∀ term, ¬ (members.start settings).Won term := by
    rintro term ⟨member, became⟩
    obtain ⟨halted, same⟩ := fresh member
    rw [same] at became
    cases became
  refine ⟨⟨⟨?_, ?_, ?_, ?_, ?_, ?_, ?_⟩, ?_, ?_, ?_, ?_⟩,
    ⟨?_, ?_, ?_, ?_⟩, ⟨?_, ?_, ?_, ?_, ?_⟩, ?_, ?_⟩
  · intro term won
    exact absurd won (noneWon term)
  · intro term other won
    exact absurd won (noneWon term)
  · intro term lost
    rfl
  · intro term won
    exact absurd won (noneWon term)
  · rintro voter term ⟨candidateId, impossible⟩
    exact impossible.elim
  · intro term won
    exact absurd won (noneWon term)
  · intro voter term index higher impossible
    exact impossible.elim
  · intro member term held
    cases held
  · intro voter term candidate impossible
    exact impossible.elim
  · intro candidate voter own unled impossible
    exact impossible.elim
  · intro message req candidate sent
    cases sent
  · intro message req sent
    cases sent
  · intro member fi call held
    rw [noThreads] at held
    cases held
  · intro member src pending held
    rw [noThreads] at held
    cases held
  · intro member thread fi call held
    rw [noThreads] at held
    cases held
  · intro member term index smaller impossible
    exact impossible.elim
  · intro member term index impossible
    exact impossible.elim
  · intro message req rsp sent
    cases sent
  · intro leader peer leads
    exact absurd leads (noLeader leader)
  · intro leader leads
    exact absurd leads (noLeader leader)
  · intro member positive
    obtain ⟨halted, same⟩ := fresh member
    rw [same] at positive
    cases halted <;> cases positive
  · intro member
    obtain ⟨halted, same⟩ := fresh member
    rw [same]
    cases halted
    · exact ⟨Nat.le_refl 1, Nat.le_refl 1, Nat.zero_le _⟩
    · exact ⟨Nat.zero_le _, Nat.zero_le _, Nat.zero_le _⟩

/-- What a run keeps together with its record. -/
structure Cluster.Recorded
    (members : Membership n)
    (cluster : Cluster n)
    (record : Record n) : Prop where
  sane : cluster.Sane members
  ballots : Ballots members record.cast cluster
  matching : Matching record.full record.line cluster
  sound : record.Sound members cluster
  leads :
    ∀ member,
      (cluster.node member).view.role = .leader →
      (cluster.node member).view.Holds (record.full member)

/-- Lines and acknowledgements grow. -/
structure Record.Grows (record later : Record n) : Prop where
  lines : ∀ term, record.line term <+: later.line term
  acks :
    ∀ member term index,
      record.acked member term index → later.acked member term index

/--
The commit condition on a step of the cluster: the log condition without the
one on restarts, a restarted node that abstains from elections and accepts
append requests of no term below those it has been in, a leader that sends, and
requests without new entries that confirm the log.
-/
def commitsKept
    (cluster : Cluster n)
    (move : Move n) :
    Bool :=
  let node := cluster.node move.node
  node.keepsBallot move.act && node.abstains move.act &&
    node.tailUnmoved move.act && node.skipsAgree move.act &&
      node.sendsAsLeader move.act && node.confirms move.act &&
        node.keepsFloor move.act

/-- A step keeps what is recorded; only a restarted node starts a new log. -/
theorem recorded_step_keeps
    (recorded : cluster.Recorded members record)
    (allowed : commitsKept cluster move = true)
    (stepped : cluster.step move = some next) :
    ∃ later,
      next.Recorded members later ∧ record.Grows later ∧
        ∀ member,
          (move.node = member → move.act.isRestart = false) →
          record.full member <+: later.full member := by
  simp only [commitsKept, Bool.and_eq_true] at allowed
  obtain ⟨⟨⟨⟨⟨⟨keeps, abstains⟩, unmoved⟩, agrees⟩, asLeader⟩, confirms⟩,
    floor⟩ := allowed
  obtain ⟨outputs, moves⟩ := Cluster.step_moves recorded.sane stepped
  have stepping :
      Record.Stepping members record cluster move next outputs
        (record.after cluster move next outputs) :=
    ⟨⟨⟨recorded.sane, recorded.ballots, moves, keeps, abstains⟩,
      recorded.matching, unmoved, agrees⟩, recorded.sound, asLeader, confirms,
      floor, rfl⟩
  refine ⟨_, ⟨moves.sane recorded.sane, stepping.ballots, stepping.matching,
    stepping.sound_after, fun member leader => ?_⟩,
    ⟨stepping.grows, stepping.acked_mono⟩, fun member stays => ?_⟩
  · by_cases here : member = move.node
    · subst here
      have stays := stepping.logging.voting.stays_of_leader leader
      rw [stepping.full_self]
      exact stepping.step.holds stays (stepping.logging.holding stays).1
        (recorded.matching.reach _) unmoved
    · rw [stepping.node_other here] at leader ⊢
      rw [stepping.full_other here]
      exact recorded.leads member leader
  · by_cases here : move.node = member
    · exact stepping.full_mono (stays here) member
    · rw [stepping.full_other fun same => here same.symm]

/-- A step keeps what is recorded. -/
theorem recorded_step
    (recorded : cluster.Recorded members record)
    (allowed : commitsKept cluster move = true)
    (stepped : cluster.step move = some next) :
    ∃ later, next.Recorded members later ∧ record.Grows later := by
  obtain ⟨later, holds, grows, -⟩ :=
    recorded_step_keeps recorded allowed stepped
  exact ⟨later, holds, grows⟩

/-- A run keeps and extends what is recorded. -/
theorem recorded_run
    {moves : List (Move n)}
    (recorded : cluster.Recorded members record)
    (run : runWhile commitsKept Cluster.step cluster moves = some next) :
    ∃ later, next.Recorded members later ∧ record.Grows later := by
  refine runWhile_invariant
    (fun state => ∃ later, state.Recorded members later ∧ record.Grows later)
    ?_ ⟨record, recorded, fun _ => List.prefix_rfl, fun _ _ _ acks => acks⟩ run
  rintro before move after ⟨middle, held, grows⟩ allowed stepped
  obtain ⟨later, holds, more⟩ := recorded_step held allowed stepped
  exact ⟨later, holds, fun term => (grows.lines term).trans (more.lines term),
    fun member term index acks =>
      more.acks member term index (grows.acks member term index acks)⟩

/-- A cluster that has just booted records nothing. -/
theorem start_recorded
    (members : Membership n)
    (settings : Fin n → Settings) :
    (members.start settings).Recorded members Record.empty :=
  ⟨start_sane members settings, start_ballots members settings,
    start_matching members settings, start_sound members settings,
    fun member leader => by
      obtain ⟨halted, same⟩ := boot_node members settings member
      rw [Cluster.node, Membership.start, same] at leader
      cases halted <;> cases leader⟩

/--
What a leader has committed is in the logs of the leaders of higher terms: each
has an entry of the index, and as far as both entries are in memory they have
the same term.
-/
def Cluster.LeadersKeep (before after : Cluster n) : Prop :=
  ∀ leader successor logIdx,
    (before.procs leader).server.raft.state = .leader →
    logIdx ≤ (before.procs leader).server.raft.commitIndex →
    (after.procs successor).server.raft.state = .leader →
    (before.procs leader).server.raft.currentTerm <
      (after.procs successor).server.raft.currentTerm →
    logIdx < (after.procs successor).server.ring.tailLogIndex ∧
      ((before.procs leader).server.Remembers logIdx →
        (after.procs successor).server.Remembers logIdx →
        ((after.procs successor).server.logAt logIdx).term =
          ((before.procs leader).server.logAt logIdx).term)

/-- What is committed stays in the lines of later terms. -/
theorem Cluster.Recorded.leadersKeep
    {before after : Cluster n}
    (recorded : before.Recorded members record)
    (holds : after.Recorded members later)
    (grows : record.Grows later) :
    before.LeadersKeep after := by
  intro leader successor logIdx leads committed succeeds higher
  have tail := (holds.leads successor succeeds).tail
  rcases Nat.eq_zero_or_pos logIdx with rfl | positive
  · have sameTail : (after.procs successor).server.ring.tailLogIndex =
        (later.full successor).length + 1 := tail
    refine ⟨by omega, fun remembers => ?_⟩
    exact absurd (recorded.matching.remembered remembers).1
      (Nat.lt_irrefl 0)
  · have commits : logIdx ≤ (before.node leader).view.commit := committed
    obtain ⟨term, last, acks, bounded, within, part⟩ :=
      recorded.sound.commits leader (Nat.lt_of_lt_of_le positive commits)
    have length := acks.length_le
    have won : after.Won (after.node successor).view.term :=
      ⟨successor, ((holds.matching.reign successor).leading succeeds).2⟩
    have ordered : term ≤ (after.node successor).view.term :=
      bounded.trans (Nat.le_of_lt higher)
    have inLine := holds.sound.votes.elections.committed_in_line
      (acks.mono grows.lines grows.acks) won ordered
      (commits.trans within)
    rw [holds.matching.leader successor succeeds,
      take_of_front (grows.lines term)
        ((commits.trans within).trans length)] at inLine
    have front : (record.full leader).take logIdx =
        (record.line term).take logIdx := by
      have whole : ((record.line term).take
          (before.node leader).view.commit).length =
            (before.node leader).view.commit := by
        rw [List.length_take]
        exact min_eq_left (within.trans length)
      rw [take_of_front part (by omega), List.take_take,
        Nat.min_eq_left commits]
    rw [← front] at inLine
    have longEnough : logIdx ≤ (later.full successor).length := by
      have lengths := congrArg List.length (inLine.trans front)
      rw [List.length_take, List.length_take] at lengths
      omega
    refine ⟨?_, fun inLeader inSuccessor => ?_⟩
    · have sameTail : (after.procs successor).server.ring.tailLogIndex =
          (later.full successor).length + 1 := tail
      omega
    · have entry := (recorded.matching.remembered inLeader).2
      have found := (holds.matching.remembered inSuccessor).2
      have same := congrArg (fun log => log[logIdx - 1]?) inLine
      rw [List.getElem?_take_of_lt (by omega),
        List.getElem?_take_of_lt (by omega), entry, found] at same
      exact Option.some.inj same

/-- A run that goes on keeps what its leaders have committed. -/
theorem Cluster.leadersKeep_of_runs
    {settings : Fin n → Settings}
    {earlier moves : List (Move n)}
    {before after : Cluster n}
    (run :
      runWhile commitsKept Cluster.step (members.start settings) earlier =
        some before)
    (rest : runWhile commitsKept Cluster.step before moves = some after) :
    before.LeadersKeep after := by
  obtain ⟨record, recorded, -⟩ :=
    recorded_run (start_recorded members settings) run
  obtain ⟨later, holds, grows⟩ := recorded_run recorded rest
  exact recorded.leadersKeep holds grows

/--
Leader completeness: in a run in which restarted nodes abstain, votes and logs
are kept, leaders send and confirmations are sound, every leader has what the
leaders of lower terms had committed before.
-/
theorem leaders_keep_committed
    {settings : Fin n → Settings}
    {earlier moves : List (Move n)}
    {before after : Cluster n}
    (run :
      runWhile commitsKept Cluster.step (members.start settings) earlier =
        some before)
    (rest : runWhile commitsKept Cluster.step before moves = some after) :
    before.LeadersKeep after :=
  Cluster.leadersKeep_of_runs run rest

/-- The second node answers the first leader, which commits both entries. -/
def commitRound
    (leader : Fin 3)
    (term : Nat) :
    List (Move 3) :=
  [moveOf leader (.appendReply 1 { term := term, success := true }),
   moveOf leader (mainAct false), moveOf leader (mainAct true),
   moveOf leader (mainAct false), moveOf leader (mainAct false),
   moveOf leader (.appendSend 2)]

/-- The first leader has replicated and committed a no-op and a command. -/
def committedCommand : List (Move 3) :=
  replicatedCommand ++ commitRound firstMember 1

/-- A node that is restarted on its ring file. -/
def restartOf (node : Fin 3) : Move 3 :=
  moveOf node (.restart smallRingAnswers false)

/-- The third node votes for the second one, which wins term 2. -/
def votedByThird (lastIndex lastTerm : Nat) : List (Move 3) :=
  [moveOf secondMember (.voteSend 1),
   moveOf thirdMember (.handleVote 1 {
     term := 2
     candidateId := 2
     lastLogIndex := lastIndex
     lastLogTerm := lastTerm }),
   moveOf secondMember (.voteReply 1 { term := 2, voteGranted := true }),
   moveOf secondMember (mainAct false)]

/-- The old leader is restarted, and the node with its entries wins. -/
def succession : List (Move 3) :=
  [restartOf firstMember] ++ candidacy secondMember ++
    waiting secondMember ++ votedByThird 2 1

/-- The successor of a restarted leader has what that one had committed. -/
theorem successor_keeps_committed :
    ∃ before after,
      runWhile commitsKept Cluster.step threeNodes committedCommand =
          some before ∧
        runWhile commitsKept Cluster.step before succession = some after ∧
          (before.procs 0).server.raft.commitIndex = 2 ∧
            (after.procs 1).server.raft.state = .leader ∧
              (after.procs 1).server.raft.currentTerm = 2 ∧
                before.LeadersKeep after := by
  obtain ⟨before, run, passed⟩ :
      ∃ before,
        runWhile commitsKept Cluster.step threeNodes committedCommand =
            some before ∧
          ((runWhile commitsKept Cluster.step before succession).any
            fun after =>
              decide ((before.procs 0).server.raft.commitIndex = 2 ∧
                (after.procs 1).server.raft.state = .leader ∧
                (after.procs 1).server.raft.currentTerm = 2)) = true :=
    runWhile_exists (by decide +kernel)
  obtain ⟨after, rest, reached⟩ := runWhile_exists passed
  have facts := of_decide_eq_true reached
  exact ⟨before, after, run, rest, facts.1, facts.2.1, facts.2.2,
    leaders_keep_committed run rest⟩

/-- Whatever restarts, every leader has what earlier leaders have committed. -/
def LeadersAlwaysKeep (start : Cluster 3) : Prop :=
  ∀ earlier moves before after,
    runWhile (fun _ _ => true) Cluster.step start earlier = some before →
    runWhile (fun _ _ => true) Cluster.step before moves = some after →
    before.LeadersKeep after

/--
The follower that has acknowledged the entries is restarted; with an empty log
it times out twice and wins term 2 with the vote of the third node.
-/
def emptyLeader : List (Move 3) :=
  [restartOf secondMember] ++ candidacy secondMember ++
    [moveOf secondMember (mainAct false)] ++ candidacy secondMember ++
      votedByThird 0 0

/-- A restarted node leads without the committed entries. -/
theorem restarted_node_leads_without_log :
    ¬ LeadersAlwaysKeep threeNodes := by
  intro always
  obtain ⟨before, run, passed⟩ :
      ∃ before,
        runWhile (fun _ _ => true) Cluster.step threeNodes committedCommand =
            some before ∧
          ((runWhile (fun _ _ => true) Cluster.step before emptyLeader).any
            fun after =>
              decide ((before.procs 0).server.raft.state = .leader ∧
                (before.procs 0).server.raft.commitIndex = 2 ∧
                (before.procs 0).server.raft.currentTerm = 1 ∧
                (after.procs 1).server.raft.state = .leader ∧
                (after.procs 1).server.raft.currentTerm = 2 ∧
                (after.procs 1).server.ring.tailLogIndex = 2)) = true :=
    runWhile_exists (by decide +kernel)
  obtain ⟨after, rest, reached⟩ := runWhile_exists passed
  obtain ⟨leads, commit, term, succeeds, higher, tail⟩ :=
    of_decide_eq_true reached
  have held := (always committedCommand emptyLeader before after run rest 0 1
    2 leads (le_of_eq commit.symm) succeeds
    (by rw [term, higher]; exact Nat.one_lt_two)).1
  rw [tail] at held
  exact lt_irrefl 2 held

/--
Entries of one index that two nodes have committed and still have in memory
have the same term.
-/
def Cluster.CommitsAgree (cluster : Cluster n) : Prop :=
  ∀ first second logIdx,
    logIdx ≤ (cluster.procs first).server.raft.commitIndex →
    logIdx ≤ (cluster.procs second).server.raft.commitIndex →
    (cluster.procs first).server.Remembers logIdx →
    (cluster.procs second).server.Remembers logIdx →
    ((cluster.procs first).server.logAt logIdx).term =
      ((cluster.procs second).server.logAt logIdx).term

theorem Cluster.Recorded.commitsAgree
    (recorded : cluster.Recorded members record) :
    cluster.CommitsAgree := by
  intro first second logIdx committed alsoCommitted inFirst inSecond
  obtain ⟨positive, entry⟩ := recorded.matching.remembered inFirst
  obtain ⟨-, found⟩ := recorded.matching.remembered inSecond
  have same := recorded.sound.votes.elections.backed_agree
    (recorded.sound.commits first) (recorded.sound.commits second) committed
    alsoCommitted
  have atIndex := congrArg (fun log => log[logIdx - 1]?) same
  rw [List.getElem?_take_of_lt (by omega),
    List.getElem?_take_of_lt (by omega), entry, found] at atIndex
  exact Option.some.inj atIndex

/--
The commit condition on a step without a restart: the log condition, a leader
that sends, and requests without new entries that confirm the log.
-/
def confirmationsKept
    (cluster : Cluster n)
    (move : Move n) :
    Bool :=
  logsKept cluster move &&
    (cluster.node move.node).sendsAsLeader move.act &&
      (cluster.node move.node).confirms move.act

/-- Where no node has been restarted, the conditions on restarts hold. -/
theorem commitsKept_of_active
    (active : ∀ member, (cluster.node member).retired = false)
    (allowed : confirmationsKept cluster move = true) :
    commitsKept cluster move = true := by
  have abstains : (cluster.node move.node).abstains move.act = true := by
    simp [Node.abstains, active]
  have floor : (cluster.node move.node).keepsFloor move.act = true := by
    unfold Node.keepsFloor
    rw [Node.floor_of_active (active _)]
    cases move.act <;> simp
  simp only [confirmationsKept, logsKept, electionsKept,
    Bool.and_eq_true] at allowed
  obtain ⟨⟨⟨⟨⟨-, keeps⟩, unmoved⟩, agrees⟩, asLeader⟩, confirms⟩ := allowed
  simp only [commitsKept, keeps, abstains, unmoved, agrees, asLeader,
    confirms, floor, Bool.and_self]

/--
State machine safety: in a run without restarts that meets the log condition,
in which leaders send and confirmations are sound, no two nodes have committed
different entries.
-/
theorem commits_agree
    {settings : Fin n → Settings}
    {moves : List (Move n)}
    (run :
      runWhile confirmationsKept Cluster.step (members.start settings) moves =
        some cluster) :
    cluster.CommitsAgree := by
  obtain ⟨-, record, recorded⟩ :
      (∀ member, (cluster.node member).retired = false) ∧
        ∃ record, cluster.Recorded members record := by
    refine runWhile_invariant
      (fun state =>
        (∀ member, (state.node member).retired = false) ∧
          ∃ record, state.Recorded members record)
      ?_ ⟨(start_voting members settings).active, _,
        start_recorded members settings⟩ run
    rintro before move after ⟨active, record, recorded⟩ allowed stepped
    obtain ⟨later, holds, -⟩ := recorded_step recorded
      (commitsKept_of_active active allowed) stepped
    obtain ⟨outputs, moves⟩ := Cluster.step_moves recorded.sane stepped
    refine ⟨fun member => ?_, later, holds⟩
    by_cases here : member = move.node
    · subst here
      simp only [confirmationsKept, logsKept, electionsKept,
        Bool.and_eq_true, Bool.not_eq_true'] at allowed
      rw [moves.step.retired_eq (Act.not_restart allowed.1.1.1.1.1)]
      exact active _
    · rw [moves.node_other here]
      exact active member
  exact recorded.commitsAgree

end

/-- The leader's message that both of its entries are committed. -/
def bothCommitted
    (leader : Fin 3)
    (term : Nat) :
    AppendEntriesRequest where
  term := term
  leaderId := leader + 1
  prevLogIndex := 2
  prevLogTerm := term
  leaderCommit := 2
  leaderPbaSrc := 0
  logBlockLength := 0
  numEntries := 0
  slotsPerEntry := 0
  startSlot := 0
  leaderDevIndex := leader
  dataAlreadyCopied := false
  entryMetas := []

/-- The follower of the first leader commits both entries as well. -/
def followedCommit : List (Move 3) :=
  committedCommand ++
    [moveOf secondMember (.handleAppend 0 (bothCommitted firstMember 1))]

/-- Leader and follower agree on what both have committed. -/
theorem followed_commit_agrees :
    ∃ cluster,
      runWhile confirmationsKept Cluster.step threeNodes followedCommit =
          some cluster ∧
        ((cluster.procs 0).server.raft.commitIndex = 2 ∧
          (cluster.procs 1).server.raft.commitIndex = 2) ∧
          cluster.CommitsAgree := by
  obtain ⟨cluster, run, passed⟩ :
      ∃ cluster,
        runWhile confirmationsKept Cluster.step threeNodes followedCommit =
            some cluster ∧
          decide ((cluster.procs 0).server.raft.commitIndex = 2 ∧
            (cluster.procs 1).server.raft.commitIndex = 2) = true :=
    runWhile_exists (by decide +kernel)
  exact ⟨cluster, run, of_decide_eq_true passed, commits_agree run⟩

/-- Neither a restart nor a failing file operation. -/
def undisturbed
    {n : Nat}
    (move : Move n) :
    Bool :=
  !move.act.isRestart && decide (move.outcomes = {})

/-- Every undisturbed run agrees on what is committed. -/
def CommitsAlwaysAgree (start : Cluster 3) : Prop :=
  ∀ moves cluster,
    runWhile (fun _ move => undisturbed move) Cluster.step start moves =
      some cluster →
    cluster.CommitsAgree

/--
The first node has skipped the first of two entries and reports success; the
leader commits both and says so.
-/
def committedConflict : List (Move 3) :=
  skippedConflict ++ commitRound secondMember 2 ++
    [moveOf firstMember (.handleAppend 1 (bothCommitted secondMember 2))]

/-- Leader and follower have committed different entries at index 1. -/
theorem committed_conflict_disagrees :
    ¬ CommitsAlwaysAgree threeNodes := by
  intro always
  obtain ⟨cluster, run, passed⟩ :
      ∃ cluster,
        runWhile (fun _ move => undisturbed move) Cluster.step threeNodes
            committedConflict = some cluster ∧
          decide ((1 ≤ (cluster.procs 0).server.raft.commitIndex ∧
            1 ≤ (cluster.procs 1).server.raft.commitIndex) ∧
            (cluster.procs 0).server.Remembers 1 ∧
            (cluster.procs 1).server.Remembers 1 ∧
            ((cluster.procs 0).server.logAt 1).term = 1 ∧
            ((cluster.procs 1).server.logAt 1).term = 2) = true :=
    runWhile_exists (by decide +kernel)
  obtain ⟨⟨firstCommits, secondCommits⟩, firstHas, secondHas, one, two⟩ :=
    of_decide_eq_true passed
  have same := always committedConflict cluster run 0 1 1 firstCommits
    secondCommits firstHas secondHas
  rw [one, two] at same
  cases same

end NvmeofRaft
