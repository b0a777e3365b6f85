import NvmeofRaft.AppendAnswer
import NvmeofRaft.BatchClamps

namespace NvmeofRaft

/-!
# Fast backoff

A rejected follower names the term of its entry at the previous index and the
first index of that term; the leader searches its own log for the last entry of
the term.  Over two logs that match each other the two scans fit together: the
next index goes down in every round and never below the end of what the logs
share.
-/

section

variable {α : Type} {first second : List α} {shared : Nat}

/-- Both lists begin with the same `count` values. -/
structure SharePrefix
    (first second : List α)
    (count : Nat) : Prop where
  inFirst : count ≤ first.length
  inSecond : count ≤ second.length
  same : first.take count = second.take count

/-- Lists that agree at a position agree in front of it. -/
def ListsMatch (first second : List α) : Prop :=
  ∀ position value,
    first[position]? = some value →
    second[position]? = some value →
    SharePrefix first second (position + 1)

theorem SharePrefix.getElem?
    {count position : Nat}
    (share : SharePrefix first second count)
    (inside : position < count) :
    first[position]? = second[position]? := by
  rw [← List.getElem?_take_of_lt inside, share.same,
    List.getElem?_take_of_lt inside]

/-- ListsMatch lists agree exactly on their longest common prefix. -/
theorem ListsMatch.agree_iff
    {position : Nat}
    (matching : ListsMatch first second)
    (longest : IsGreatest { count | SharePrefix first second count } shared)
    (inFirst : position < first.length) :
    first[position]? = second[position]? ↔ position < shared := by
  constructor
  · intro same
    have found := List.getElem?_eq_getElem inFirst
    exact longest.2 (matching position _ found (same ▸ found))
  · exact longest.1.getElem?

end

/-- The terms of the entries behind the sentinel. -/
def Server.terms (server : Server) : List Nat :=
  server.raft.log.tail.map Entry.term

/-- An untrimmed log with positive terms that do not go down. -/
structure Server.TermLog (server : Server) : Prop where
  sentinel : 0 < server.raft.log.length
  untrimmed : server.ring.tailLogIndex = server.raft.log.length
  positive : ∀ term, term ∈ server.terms → 1 ≤ term
  ordered : server.terms.Pairwise (· ≤ ·)

namespace Server.TermLog

variable {server : Server} {logIdx : Nat}

theorem oldest
    (log : server.TermLog) :
    server.oldestLogIndex = 1 := by
  have sentinel := log.sentinel
  rw [Server.oldestLogIndex, log.untrimmed, sub64_of_le (Nat.sub_le _ _)]
  omega

theorem length
    (log : server.TermLog) :
    server.terms.length + 1 = server.ring.tailLogIndex := by
  have sentinel := log.sentinel
  rw [log.untrimmed, Server.terms, List.length_map, List.length_tail]
  omega

/-- The term at an index, as an item of the terms. -/
theorem term_eq
    (log : server.TermLog)
    (positive : 1 ≤ logIdx)
    (inLog : logIdx < server.ring.tailLogIndex) :
    server.terms[logIdx - 1]? = some (server.logAt logIdx).term := by
  have inside : logIdx < server.raft.log.length := log.untrimmed ▸ inLog
  have slice : server.logSlice logIdx = logIdx := by
    rw [Server.logSlice, log.oldest, sub64_of_le (Nat.le_add_left _ _)]
    omega
  rw [Server.terms, List.getElem?_map, List.getElem?_tail,
    Nat.sub_add_cancel positive, Server.logAt, slice,
    List.getD_eq_getElem?_getD, List.getElem?_eq_getElem inside]
  rfl

theorem one_le_term
    (log : server.TermLog)
    (positive : 1 ≤ logIdx)
    (inLog : logIdx < server.ring.tailLogIndex) :
    1 ≤ (server.logAt logIdx).term :=
  log.positive _ (List.mem_of_getElem? (log.term_eq positive inLog))

/-- Terms do not fall along a log. -/
theorem term_mono
    (log : server.TermLog)
    {later : Nat}
    (positive : 1 ≤ logIdx)
    (before : logIdx ≤ later)
    (inLog : later < server.ring.tailLogIndex) :
    (server.logAt logIdx).term ≤ (server.logAt later).term := by
  rcases Nat.eq_or_lt_of_le before with same | earlier
  · subst same
    exact le_refl _
  · have front := log.term_eq positive (by omega)
    have back := log.term_eq (show 1 ≤ later by omega) inLog
    obtain ⟨frontInside, frontIs⟩ := List.getElem?_eq_some_iff.mp front
    obtain ⟨backInside, backIs⟩ := List.getElem?_eq_some_iff.mp back
    rw [← frontIs, ← backIs]
    exact List.pairwise_iff_getElem.mp log.ordered _ _ frontInside
      backInside (by omega)

end Server.TermLog

/-- A leader and a follower with logs that match up to some index. -/
structure LogPair
    (leader follower : Server)
    (shared : Nat) : Prop where
  leaderLog : leader.TermLog
  followerLog : follower.TermLog
  matching : ListsMatch leader.terms follower.terms
  longest :
    IsGreatest { count | SharePrefix leader.terms follower.terms count } shared

section

variable {leader follower : Server} {shared : Nat}

/-- Both logs reach the shared front. -/
theorem LogPair.shared_lt
    (pair : LogPair leader follower shared) :
    shared < leader.ring.tailLogIndex ∧
      shared < follower.ring.tailLogIndex := by
  have leaderLength := pair.leaderLog.length
  have followerLength := pair.followerLog.length
  have inLeader := pair.longest.1.inFirst
  have inFollower := pair.longest.1.inSecond
  constructor
  · omega
  · omega

/-- The logs agree exactly on what they share. -/
theorem LogPair.agree_iff
    (pair : LogPair leader follower shared)
    {logIdx : Nat}
    (positive : 1 ≤ logIdx)
    (inLeader : logIdx < leader.ring.tailLogIndex)
    (inFollower : logIdx < follower.ring.tailLogIndex) :
    (leader.logAt logIdx).term = (follower.logAt logIdx).term ↔
      logIdx ≤ shared := by
  have length := pair.leaderLog.length
  have agree := pair.matching.agree_iff pair.longest
    (show logIdx - 1 < leader.terms.length by omega)
  rw [pair.leaderLog.term_eq positive inLeader,
    pair.followerLog.term_eq positive inFollower, Option.some_inj] at agree
  rw [agree]
  omega

/-- The follower's scan ends at an entry of the term it starts from. -/
theorem conflictStart_spec
    (server : Server)
    (localTerm : Nat) :
    ∀ index,
      1 ≤ index →
      (server.logAt index).term = localTerm →
      1 ≤ conflictStart server 1 localTerm index ∧
        conflictStart server 1 localTerm index ≤ index ∧
          (server.logAt (conflictStart server 1 localTerm index)).term =
            localTerm := by
  intro index
  induction index with
  | zero =>
      intro positive
      exact absurd positive (Nat.not_succ_le_zero 0)
  | succ index inductionHypothesis =>
      intro positive same
      rw [conflictStart]
      split
      · rename_i earlier
        obtain ⟨first, before, found⟩ :=
          inductionHypothesis (Nat.le_of_lt_succ earlier.1) earlier.2
        exact ⟨first, before.trans (Nat.le_succ index), found⟩
      · exact ⟨positive, le_refl _, same⟩

/-- How the leader's scan for the last entry of a term ends. -/
inductive Server.ScanEnds
    (server : Server)
    (conflictTerm conflictIndex index : Nat) :
    Nat → Prop where
  | found
      {last : Nat} :
      1 ≤ last →
      last ≤ index →
      (server.logAt last).term = conflictTerm →
      (∀ later, last < later → later ≤ index →
        conflictTerm < (server.logAt later).term) →
      ScanEnds server conflictTerm conflictIndex index (last + 1)
  | missing
      {stop : Nat} :
      stop ≤ index →
      stop = 0 ∨ (server.logAt stop).term < conflictTerm →
      (∀ later, stop < later → later ≤ index →
        conflictTerm < (server.logAt later).term) →
      ScanEnds server conflictTerm conflictIndex index conflictIndex

/-- An entry of a higher term in front leaves the end as it is. -/
theorem Server.ScanEnds.further
    {server : Server}
    {conflictTerm conflictIndex index next : Nat}
    (ends : server.ScanEnds conflictTerm conflictIndex index next)
    (higher : conflictTerm < (server.logAt (index + 1)).term) :
    server.ScanEnds conflictTerm conflictIndex (index + 1) next := by
  have extend :
      ∀ {start : Nat},
        (∀ later, start < later → later ≤ index →
          conflictTerm < (server.logAt later).term) →
        ∀ later, start < later → later ≤ index + 1 →
          conflictTerm < (server.logAt later).term := by
    intro start above later after upTo
    rcases Nat.eq_or_lt_of_le upTo with same | before
    · rw [same]
      exact higher
    · exact above later after (Nat.le_of_lt_succ before)
  cases ends with
  | found positive upTo same above =>
      exact .found positive (upTo.trans (Nat.le_succ index)) same
        (extend above)
  | missing upTo stops above =>
      exact .missing (upTo.trans (Nat.le_succ index)) stops (extend above)

theorem conflictNext_ends
    (server : Server)
    (conflictTerm conflictIndex : Nat) :
    ∀ index,
      server.ScanEnds conflictTerm conflictIndex index
        (conflictNext server 1 conflictTerm conflictIndex index) := by
  intro index
  induction index with
  | zero =>
      exact .missing (le_refl 0) (Or.inl rfl) fun later after upTo => by
        omega
  | succ index inductionHypothesis =>
      rw [conflictNext, if_neg (by omega)]
      rcases Nat.lt_trichotomy (server.logAt (index + 1)).term conflictTerm
        with smaller | same | higher
      · rw [if_neg (Nat.ne_of_lt smaller), if_pos (Or.inl smaller)]
        exact .missing (le_refl _) (Or.inr smaller)
          fun later after upTo => by omega
      · rw [if_pos same]
        exact .found (Nat.le_add_left 1 index) (le_refl _) same
          fun later after upTo => by omega
      · rw [if_neg (Nat.ne_of_gt higher)]
        split
        · rename_i stops
          have first : index = 0 := by omega
          subst first
          exact Server.ScanEnds.further
            (.missing (le_refl 0) (Or.inl rfl)
              fun later after upTo => by omega) higher
        · exact inductionHypothesis.further higher

/-- The scans meet between the shared prefix and the previous index. -/
theorem LogPair.scan_bounds
    (pair : LogPair leader follower shared)
    {prev conflictIndex : Nat}
    (beyond : shared < prev)
    (inLeader : prev < leader.ring.tailLogIndex)
    (inFollower : prev < follower.ring.tailLogIndex)
    (positive : 1 ≤ conflictIndex)
    (before : conflictIndex ≤ prev)
    (sameTerm :
      (follower.logAt conflictIndex).term = (follower.logAt prev).term) :
    shared + 1 ≤
        conflictNext leader 1 (follower.logAt prev).term conflictIndex prev ∧
      conflictNext leader 1 (follower.logAt prev).term conflictIndex prev ≤
        prev := by
  have ends := conflictNext_ends leader (follower.logAt prev).term
    conflictIndex prev
  generalize conflictNext leader 1 (follower.logAt prev).term conflictIndex
    prev = next at ends
  obtain ⟨sharedLeader, sharedFollower⟩ := pair.shared_lt
  have agree :
      ∀ logIdx, 1 ≤ logIdx → logIdx ≤ shared →
        (leader.logAt logIdx).term = (follower.logAt logIdx).term :=
    fun logIdx positive upTo =>
      (pair.agree_iff positive (by omega) (by omega)).mpr upTo
  cases ends with
  | @found last _ upTo same above =>
      have different : last ≠ prev := by
        rintro rfl
        exact absurd ((pair.agree_iff (by omega) inLeader inFollower).mp same)
          (by omega)
      refine ⟨?_, by omega⟩
      by_contra short
      -- The follower's terms do not go down behind the shared prefix.
      have higher := above (last + 1) (Nat.lt_succ_self last) (by omega)
      have follows := pair.followerLog.term_mono
        (show 1 ≤ last + 1 by omega) (show last + 1 ≤ prev by omega)
        inFollower
      rw [agree (last + 1) (by omega) (by omega)] at higher
      omega
  | @missing stop upTo stops above =>
      refine ⟨?_, before⟩
      by_contra short
      -- The leader has the term at the follower's index and would find it.
      have held := agree conflictIndex positive (by omega)
      rw [sameTerm] at held
      rcases Nat.lt_or_ge stop conflictIndex with behind | reached
      · have higher := above conflictIndex behind before
        omega
      · have rises := pair.leaderLog.term_mono positive reached (by omega)
        rcases stops with zero | smaller
        · omega
        · omega

/-- The hints of a rejection at a previous index. -/
inductive Server.Hints
    (server : Server)
    (prev : Nat) :
    AppendEntriesResponse → Prop where
  | short :
      server.ring.tailLogIndex ≤ prev →
      Hints server prev {
        term := server.raft.currentTerm
        conflictIndex := server.ring.tailLogIndex }
  | otherTerm :
      prev < server.ring.tailLogIndex →
      Hints server prev {
        term := server.raft.currentTerm
        conflictTerm := (server.logAt prev).term
        conflictIndex :=
          conflictStart server 1 (server.logAt prev).term prev }

/-- The follower's entry at the previous index is missing or of another term. -/
def Server.Lacks
    (follower leader : Server)
    (prev : Nat) : Prop :=
  0 < prev ∧
    (follower.ring.tailLogIndex ≤ prev ∨
      (follower.logAt prev).term ≠ (leader.logAt prev).term)

/-- The follower turns the request down with these hints and stays as it is. -/
structure Server.TurnsDown
    (server : Server)
    (req : AppendEntriesRequest)
    (rsp : AppendEntriesResponse) : Prop where
  failure : rsp.success = false
  answers :
    ∀ copied outcomes,
      (handleAppendAlone copied req).run (server.withOutcomes outcomes) =
        .ok rsp (server.withOutcomes outcomes)

/-- The follower answers success once its copy and its I/O succeed. -/
structure Server.TakesUp
    (server : Server)
    (req : AppendEntriesRequest) : Prop where
  success :
    ∀ outcomes,
      wp (handleAppendAlone true req) (fun rsp _ => rsp.success = true)
        (fun _ _ => True) (server.withOutcomes outcomes)
  returns :
    ∃ rsp after,
      (handleAppendAlone true req).run (server.withOutcomes {}) =
        .ok rsp after

theorem conflictStart_withOutcomes
    (server : Server)
    (outcomes : IoOutcomes)
    (oldest localTerm : Nat) :
    ∀ index,
      conflictStart (server.withOutcomes outcomes) oldest localTerm index =
        conflictStart server oldest localTerm index := by
  intro index
  induction index with
  | zero =>
      rfl
  | succ index inductionHypothesis =>
      rw [conflictStart, conflictStart, inductionHypothesis]
      rfl

theorem prevLogConflict_withOutcomes
    (server : Server)
    (outcomes : IoOutcomes)
    (req : AppendEntriesRequest) :
    prevLogConflict (server.withOutcomes outcomes) req =
      prevLogConflict server req := by
  simp only [prevLogConflict, conflictStart_withOutcomes]
  rfl

/-- A conflict turns the request down with the follower's hint. -/
theorem turnsDown_of_conflict
    {server : Server}
    {req : AppendEntriesRequest}
    {rsp : AppendEntriesResponse}
    (role : server.raft.state = .follower)
    (sameTerm : req.term = server.raft.currentTerm)
    (conflict : prevLogConflict server req = some rsp) :
    server.TurnsDown req rsp := by
  have failure := prevLogConflict_spec server req
  rw [conflict] at failure
  refine ⟨failure.2.1, fun copied outcomes => ?_⟩
  have ends :
      wp (handleAppendAlone copied req)
        (fun answer final =>
          answer = rsp ∧ final = server.withOutcomes outcomes)
        (fun _ _ => False) (server.withOutcomes outcomes) := by
    have sameTerm :
        req.term = (server.withOutcomes outcomes).raft.currentTerm :=
      sameTerm
    have role : (server.withOutcomes outcomes).raft.state = .follower := role
    have conflict :
        prevLogConflict (server.withOutcomes outcomes) req = some rsp := by
      rw [prevLogConflict_withOutcomes]
      exact conflict
    generalize server.withOutcomes outcomes = server at *
    have stays : server.stepDown req = server := by
      rw [Server.stepDown, if_neg fun candidate =>
        absurd (role.symm.trans candidate.2) (by decide)]
    simp only [handleAppendAlone, handleAppendEntriesRequest, updateTerm,
      wp_bind, wp_discard, wp_get, wp_ite, wp_modify, wp_pure, sameTerm,
      Nat.lt_irrefl, if_false, stays, role, conflict]
    rw [if_neg (by simp)]
    exact ⟨trivial, trivial⟩
  unfold wp at ends
  cases ran : (handleAppendAlone copied req).run
      (server.withOutcomes outcomes) with
  | error exn final =>
      rw [ran] at ends
      exact ends.elim
  | ok answer final =>
      rw [ran] at ends
      obtain ⟨rfl, rfl⟩ := ends
      rfl

/-- Without a conflict the entries are taken up. -/
theorem takesUp_of_noConflict
    {server : Server}
    {req : AppendEntriesRequest}
    (role : server.raft.state = .follower)
    (sameTerm : req.term = server.raft.currentTerm)
    (conflict : prevLogConflict server req = none) :
    server.TakesUp req := by
  have accepts : server.accepts req = true := by
    rw [Server.accepts, conflict, role, sameTerm]
    simp
  refine ⟨fun outcomes => ?_, ?_⟩
  · refine wp_mono (handleAppendAlone_spec true req
      (server.withOutcomes outcomes)) ?_ fun _ _ _ => trivial
    intro rsp final answered
    rw [withOutcomes_view] at answered
    exact answered.success ((accepts_iff server req).mp accepts)
  · exact (handleAppendAlone_unfailing true req).returns
      (show (server.withOutcomes {}).Succeeds from rfl)

/-- The answer to a request for a next index inside the leader's log. -/
theorem LogPair.answers
    (pair : LogPair leader follower shared)
    (role : follower.raft.state = .follower)
    (sameTerm : leader.raft.currentTerm = follower.raft.currentTerm)
    {next : Nat}
    (inLeader : next ≤ leader.ring.tailLogIndex)
    (plan : RoundPlan) :
    (follower.Lacks leader (next - 1) →
      ∃ rsp,
        follower.Hints (next - 1) rsp ∧
          follower.TurnsDown (leader.fillRequest next plan) rsp) ∧
      (¬ follower.Lacks leader (next - 1) →
        follower.TakesUp (leader.fillRequest next plan)) := by
  have started : 0 < leader.ring.tailLogIndex := by
    rw [pair.leaderLog.untrimmed]
    exact pair.leaderLog.sentinel
  have prevTerm :
      0 < next - 1 →
      (leader.fillRequest next plan).prevLogTerm =
        (leader.logAt (next - 1)).term := by
    intro positive
    rw [Server.fillRequest, if_pos (by omega), Server.prevLogTerm,
      pair.leaderLog.oldest, if_pos (by omega)]
  have conflict :
      prevLogConflict follower (leader.fillRequest next plan) =
        if next - 1 = 0 then
          none
        else if follower.ring.tailLogIndex ≤ next - 1 then
          some {
            term := follower.raft.currentTerm
            conflictIndex := follower.ring.tailLogIndex }
        else if (follower.logAt (next - 1)).term ≠
            (leader.fillRequest next plan).prevLogTerm then
          some {
            term := follower.raft.currentTerm
            conflictTerm := (follower.logAt (next - 1)).term
            conflictIndex :=
              conflictStart follower 1 (follower.logAt (next - 1)).term
                (next - 1) }
        else
          none := by
    have prev : (leader.fillRequest next plan).prevLogIndex = next - 1 := rfl
    rw [prevLogConflict, pair.followerLog.oldest, prev]
    by_cases none : next - 1 = 0
    · rw [if_pos none, if_pos none]
    · rw [if_neg none, if_neg none]
      simp only [Nat.one_le_iff_ne_zero.mpr none, true_and]
  constructor
  · rintro ⟨positive, lacking⟩
    rw [if_neg (Nat.ne_of_gt positive), prevTerm positive] at conflict
    split at conflict
    · rename_i short
      exact ⟨_, .short short, turnsDown_of_conflict role sameTerm conflict⟩
    · rename_i long
      have other := lacking.resolve_left long
      rw [if_pos other] at conflict
      exact ⟨_, .otherTerm (Nat.not_le.mp long),
        turnsDown_of_conflict role sameTerm conflict⟩
  · intro holds
    refine takesUp_of_noConflict role sameTerm (conflict.trans ?_)
    split
    · rfl
    · rename_i some
      have positive := Nat.pos_of_ne_zero some
      rw [if_neg fun short => holds ⟨positive, Or.inl short⟩,
        prevTerm positive,
        if_neg fun other => holds ⟨positive, Or.inr other⟩]

/-- A rejection names the hints of the previous index. -/
theorem LogPair.hints
    (pair : LogPair leader follower shared)
    (role : follower.raft.state = .follower)
    (sameTerm : leader.raft.currentTerm = follower.raft.currentTerm)
    {next : Nat}
    {plan : RoundPlan}
    {rsp : AppendEntriesResponse}
    (inLeader : next ≤ leader.ring.tailLogIndex)
    (rejected : follower.TurnsDown (leader.fillRequest next plan) rsp) :
    follower.Lacks leader (next - 1) ∧ follower.Hints (next - 1) rsp := by
  obtain ⟨rejects, accepts⟩ := pair.answers role sameTerm inLeader plan
  have ran := rejected.answers true {}
  by_cases lacks : follower.Lacks leader (next - 1)
  · obtain ⟨other, hints, turnsDown⟩ := rejects lacks
    have same := ran.symm.trans (turnsDown.answers true {})
    injection same with same
    rw [same]
    exact ⟨lacks, hints⟩
  · have success := (accepts lacks).success {}
    unfold wp at success
    rw [ran] at success
    have failure := rejected.failure
    rw [success] at failure
    cases failure

/-- The backward search, where its accesses are inside the vector. -/
def conflictNext?
    (server : Server)
    (oldest conflictTerm conflictIndex : Nat) :
    Nat → Option Nat
  | 0 =>
      some conflictIndex
  | index + 1 =>
      if index + 1 < oldest then
        some conflictIndex
      else do
        let entry ← server.logAt? (index + 1)
        if entry.term = conflictTerm then
          return index + 2
        else if entry.term < conflictTerm ∨ index + 1 = oldest then
          return conflictIndex
        else
          conflictNext? server oldest conflictTerm conflictIndex index

/-- The scan reads inside the log. -/
theorem conflictNext?_of_covered
    {server : Server}
    (covered : server.entryView.Covered)
    (conflictTerm conflictIndex : Nat) :
    ∀ index,
      index < server.ring.tailLogIndex →
      conflictNext? server server.oldestLogIndex conflictTerm conflictIndex
          index =
        some (conflictNext server server.oldestLogIndex conflictTerm
          conflictIndex index) := by
  intro index
  induction index with
  | zero =>
      intro _
      rfl
  | succ index inductionHypothesis =>
      intro inLog
      rw [conflictNext?, conflictNext]
      by_cases trimmed : index + 1 < server.oldestLogIndex
      · rw [if_pos trimmed, if_pos trimmed]
      · rw [if_neg trimmed, if_neg trimmed,
          logAt?_of_covered covered (Nat.not_lt.mp trimmed) inLog]
        have later := inductionHypothesis (Nat.lt_of_succ_lt inLog)
        show (if (server.logAt (index + 1)).term = conflictTerm then
            some (index + 2)
          else if (server.logAt (index + 1)).term < conflictTerm ∨
              index + 1 = server.oldestLogIndex then
            some conflictIndex
          else
            conflictNext? server server.oldestLogIndex conflictTerm
              conflictIndex index) = _
        rw [later]
        split
        · rfl
        · split
          · rfl
          · rfl

/-- The suggested index lies behind the shared prefix and in front. -/
theorem LogPair.backoff_bounds
    (pair : LogPair leader follower shared)
    {next : Nat}
    {rsp : AppendEntriesResponse}
    (inLeader : next ≤ leader.ring.tailLogIndex)
    (lacks : follower.Lacks leader (next - 1))
    (hints : follower.Hints (next - 1) rsp) :
    shared + 1 ≤ leader.backoffNext next (next - 1) rsp ∧
      leader.backoffNext next (next - 1) rsp < next := by
  obtain ⟨sharedLeader, sharedFollower⟩ := pair.shared_lt
  obtain ⟨positive, lacking⟩ := lacks
  cases hints with
  | short beyond =>
      have some : follower.ring.tailLogIndex ≠ 0 := by omega
      simp only [Server.backoffNext, some, and_false, if_false, if_true]
      rw [if_neg (by omega)]
      exact ⟨sharedFollower, by omega⟩
  | otherTerm inFollower =>
      have other := lacking.resolve_left (Nat.not_le.mpr inFollower)
      have beyond : shared < next - 1 := by
        by_contra within
        exact other ((pair.agree_iff positive (by omega) inFollower).mpr
          (Nat.not_lt.mp within)).symm
      have some : (follower.logAt (next - 1)).term ≠ 0 :=
        Nat.ne_of_gt (pair.followerLog.one_le_term positive inFollower)
      obtain ⟨first, before, sameTerm⟩ := conflictStart_spec follower
        (follower.logAt (next - 1)).term (next - 1) positive rfl
      obtain ⟨above, below⟩ := pair.scan_bounds beyond (by omega) inFollower
        first before sameTerm
      simp only [Server.backoffNext, some, false_and, if_false,
        pair.leaderLog.oldest]
      rw [if_neg (by omega)]
      exact ⟨above, by omega⟩

/-- A follower of the leader's term, and a next index between the bounds. -/
structure Backing
    (leader follower : Server)
    (fi shared : Nat) : Prop where
  pair : LogPair leader follower shared
  role : follower.raft.state = .follower
  sameTerm : leader.raft.currentTerm = follower.raft.currentTerm
  inCluster : fi < leader.raft.cluster.length
  confirmed : (leader.member fi).matchIndex ≤ shared
  floor : (leader.member fi).matchIndex + 1 ≤ (leader.member fi).nextIndex
  ceiling : (leader.member fi).nextIndex ≤ leader.terms.length + 1

/-- The request of a round, with whatever entries the plan gives it. -/
def Server.roundCall
    (server : Server)
    (fi : Nat)
    (plan : RoundPlan) :
    AppendCall where
  req := server.fillRequest (server.member fi).nextIndex plan
  next := (server.member fi).nextIndex
  lenEntries := plan.lenEntries

/-- Rejected rounds in a row, each booked before the next one is sent. -/
inductive BackedOff
    (follower : Server)
    (fi : Nat) :
    Server → Nat → Server → Prop where
  | none
      {leader : Server} :
      BackedOff follower fi leader 0 leader
  | round
      {leader final : Server}
      {rejections : Nat}
      {plan : RoundPlan}
      {rsp : AppendEntriesResponse} :
      follower.TurnsDown (leader.roundCall fi plan).req rsp →
      BackedOff follower fi
        (leader.bookAnswer fi (leader.roundCall fi plan) (some rsp))
        rejections final →
      BackedOff follower fi leader (rejections + 1) final

variable {fi : Nat}

theorem mapMember_member
    {server : Server}
    (inCluster : fi < server.raft.cluster.length)
    (change : ClusterMember → ClusterMember) :
    (server.mapMember fi change).member fi = change (server.member fi) := by
  rw [Server.member, Server.member, List.getD_eq_getElem?_getD,
    List.getD_eq_getElem?_getD]
  show ((server.raft.cluster.modify fi change)[fi]?).getD _ = _
  rw [List.getElem?_modify_eq, List.getElem?_eq_getElem inCluster]
  rfl

/-- Changes of the members leave the leader's search alone. -/
theorem conflictNext_mapMember
    (server : Server)
    (change : ClusterMember → ClusterMember)
    (oldest conflictTerm conflictIndex : Nat) :
    ∀ index,
      conflictNext (server.mapMember fi change) oldest conflictTerm
          conflictIndex index =
        conflictNext server oldest conflictTerm conflictIndex index := by
  intro index
  induction index with
  | zero =>
      rfl
  | succ index inductionHypothesis =>
      rw [conflictNext, conflictNext, inductionHypothesis]
      rfl

theorem backoffNext_mapMember
    (server : Server)
    (change : ClusterMember → ClusterMember)
    (next prev : Nat)
    (rsp : AppendEntriesResponse) :
    (server.mapMember fi change).backoffNext next prev rsp =
      server.backoffNext next prev rsp := by
  rw [Server.backoffNext, Server.backoffNext, conflictNext_mapMember]
  rfl

/-- A booked rejection changes the next index of the member alone. -/
structure Server.StepsBack
    (server : Server)
    (fi prev sentNext : Nat)
    (rsp : AppendEntriesResponse)
    (after : Server) : Prop where
  members :
    ∃ change : ClusterMember → ClusterMember,
      after = server.mapMember fi change
  matchIndex : (after.member fi).matchIndex = (server.member fi).matchIndex
  nextIndex :
    (after.member fi).nextIndex =
      max (max (server.backoffNext sentNext prev rsp) 1)
        ((server.member fi).matchIndex + 1)

/-- The next index goes down. -/
theorem applyAeFailureBackoff_stepsBack
    {server : Server}
    {sentNext : Nat}
    (prev : Nat)
    (rsp : AppendEntriesResponse)
    (inCluster : fi < server.raft.cluster.length)
    (isNext : (server.member fi).nextIndex = sentNext) :
    server.StepsBack fi prev sentNext rsp
      (server.applyAeFailureBackoff fi prev sentNext rsp) := by
  refine ⟨⟨_, rfl⟩, ?_, ?_⟩
  · rw [Server.applyAeFailureBackoff, mapMember_member inCluster,
      if_neg (not_not_intro isNext)]
  · rw [Server.applyAeFailureBackoff, mapMember_member inCluster,
      if_neg (not_not_intro isNext), isNext]

/-- The booking clears the in-flight mark and steps back. -/
theorem bookAnswer_stepsBack
    {server : Server}
    (call : AppendCall)
    {rsp : AppendEntriesResponse}
    (inCluster : fi < server.raft.cluster.length)
    (isNext : (server.member fi).nextIndex = call.next)
    (failure : rsp.success = false)
    (answerTerm : rsp.term = server.raft.currentTerm)
    (sentTerm : call.req.term = server.raft.currentTerm) :
    server.StepsBack fi call.req.prevLogIndex call.next rsp
      (server.bookAnswer fi call (some rsp)) := by
  by_cases data : call.hasEntries = true
  · have booked :
        server.bookAnswer fi call (some rsp) =
          (server.setInflight fi false).applyAeFailureBackoff fi
            call.req.prevLogIndex call.next rsp := by
      simp [Server.bookAnswer, data, failure, answerTerm, sentTerm,
        Server.setInflight, Server.mapMember, Server.mapRaft]
    have sameMember :
        (server.setInflight fi false).member fi =
          { server.member fi with inflight := false } :=
      mapMember_member inCluster _
    have inCluster' :
        fi < (server.setInflight fi false).raft.cluster.length := by
      show fi < (server.raft.cluster.modify fi _).length
      rw [List.length_modify]
      exact inCluster
    have isNext' :
        ((server.setInflight fi false).member fi).nextIndex = call.next := by
      rw [sameMember]
      exact isNext
    obtain ⟨⟨change, changed⟩, matchIndex, nextIndex⟩ :=
      applyAeFailureBackoff_stepsBack call.req.prevLogIndex rsp inCluster'
        isNext'
    have sameNext :
        (server.setInflight fi false).backoffNext call.next
            call.req.prevLogIndex rsp =
          server.backoffNext call.next call.req.prevLogIndex rsp :=
      backoffNext_mapMember server _ _ _ _
    rw [sameMember] at matchIndex nextIndex
    rw [sameNext] at nextIndex
    rw [booked]
    refine ⟨⟨change ∘ fun member => { member with inflight := false }, ?_⟩,
      matchIndex, nextIndex⟩
    rw [changed]
    simp only [Server.setInflight, Server.mapMember, Server.mapRaft,
      List.modify_modify_eq]
  · have booked :
        server.bookAnswer fi call (some rsp) =
          server.applyAeFailureBackoff fi call.req.prevLogIndex call.next
            rsp := by
      simp [Server.bookAnswer, data, failure, answerTerm, sentTerm]
    rw [booked]
    exact applyAeFailureBackoff_stepsBack _ _ inCluster isNext

/-- A rejected round steps back, at most to the end of the shared prefix. -/
theorem Backing.stepsBack
    (backing : Backing leader follower fi shared)
    {plan : RoundPlan}
    {rsp : AppendEntriesResponse}
    {after : Server}
    (rejected : follower.TurnsDown (leader.roundCall fi plan).req rsp)
    (steps :
      leader.StepsBack fi ((leader.member fi).nextIndex - 1)
        (leader.member fi).nextIndex rsp after) :
    Backing after follower fi shared ∧
      shared + 1 ≤ (after.member fi).nextIndex ∧
        (after.member fi).nextIndex < (leader.member fi).nextIndex := by
  have ceiling := backing.ceiling
  have confirmed := backing.confirmed
  have inLeader : (leader.member fi).nextIndex ≤ leader.ring.tailLogIndex :=
    backing.pair.leaderLog.length ▸ ceiling
  obtain ⟨lacks, hints⟩ := backing.pair.hints backing.role backing.sameTerm
    inLeader rejected
  obtain ⟨above, below⟩ := backing.pair.backoff_bounds inLeader lacks hints
  have nextIndex : (after.member fi).nextIndex =
      leader.backoffNext (leader.member fi).nextIndex
        ((leader.member fi).nextIndex - 1) rsp := by
    rw [steps.nextIndex]
    omega
  have matchIndex := steps.matchIndex
  obtain ⟨change, same⟩ := steps.members
  have sameLog : after.raft.log = leader.raft.log := by
    rw [same]
    rfl
  have sameTail : after.ring.tailLogIndex = leader.ring.tailLogIndex := by
    rw [same]
    rfl
  have sameTerms : after.terms = leader.terms := by
    rw [Server.terms, sameLog]
    rfl
  refine ⟨⟨⟨⟨?_, ?_, ?_, ?_⟩, backing.pair.followerLog, ?_, ?_⟩,
    backing.role, ?_, ?_, ?_, ?_, ?_⟩, ?_, ?_⟩
  · rw [sameLog]
    exact backing.pair.leaderLog.sentinel
  · rw [sameTail, sameLog]
    exact backing.pair.leaderLog.untrimmed
  · rw [sameTerms]
    exact backing.pair.leaderLog.positive
  · rw [sameTerms]
    exact backing.pair.leaderLog.ordered
  · rw [sameTerms]
    exact backing.pair.matching
  · rw [sameTerms]
    exact backing.pair.longest
  · rw [same]
    exact backing.sameTerm
  · rw [same]
    show fi < (leader.raft.cluster.modify fi change).length
    rw [List.length_modify]
    exact backing.inCluster
  · rw [matchIndex]
    exact confirmed
  · rw [matchIndex, nextIndex]
    omega
  · rw [sameTerms, nextIndex]
    omega
  · rw [nextIndex]
    exact above
  · rw [nextIndex]
    exact below

/-- The booking of a rejected round steps back. -/
theorem Backing.booked
    (backing : Backing leader follower fi shared)
    {plan : RoundPlan}
    {rsp : AppendEntriesResponse}
    (rejected : follower.TurnsDown (leader.roundCall fi plan).req rsp) :
    leader.StepsBack fi ((leader.member fi).nextIndex - 1)
      (leader.member fi).nextIndex rsp
      (leader.bookAnswer fi (leader.roundCall fi plan) (some rsp)) := by
  have inLeader : (leader.member fi).nextIndex ≤ leader.ring.tailLogIndex :=
    backing.pair.leaderLog.length ▸ backing.ceiling
  obtain ⟨-, hints⟩ := backing.pair.hints backing.role backing.sameTerm
    inLeader rejected
  have answerTerm : rsp.term = leader.raft.currentTerm := by
    rw [backing.sameTerm]
    cases hints with
    | short _ =>
        rfl
    | otherTerm _ =>
        rfl
  exact bookAnswer_stepsBack (leader.roundCall fi plan)
    backing.inCluster rfl rejected.failure answerTerm rfl

/-- Each of the rejected rounds costs at least one index. -/
theorem BackedOff.bounded
    {final : Server}
    {rejections : Nat}
    (backedOff : BackedOff follower fi leader rejections final)
    (backing : Backing leader follower fi shared) :
    Backing final follower fi shared ∧
      rejections ≤ (leader.member fi).nextIndex - (shared + 1) := by
  induction backedOff with
  | none =>
      exact ⟨backing, Nat.zero_le _⟩
  | round rejected _ inductionHypothesis =>
      obtain ⟨next, above, below⟩ :=
        backing.stepsBack rejected (backing.booked rejected)
      obtain ⟨last, fewer⟩ := inductionHypothesis next
      exact ⟨last, by omega⟩

/--
Fast backoff, over any two untrimmed logs that match each other.  A follower of
the leader's term turns a request down exactly when its entry at the previous
index is missing or of another term.  After a rejection the leader, reading
inside its log, sets a next index that is lower but still behind the shared
prefix.  So at most `next_index - (shared + 1)` rounds are rejected in a row,
and the request behind them is turned down once more or accepted.
-/
theorem backoff_converges
    (backing : Backing leader follower fi shared) :
    (∀ plan,
      (follower.Lacks leader ((leader.member fi).nextIndex - 1) →
        ∃ rsp, follower.TurnsDown (leader.roundCall fi plan).req rsp) ∧
      (¬ follower.Lacks leader ((leader.member fi).nextIndex - 1) →
        follower.TakesUp (leader.roundCall fi plan).req)) ∧
    (∀ plan rsp after,
      follower.TurnsDown (leader.roundCall fi plan).req rsp →
      after = leader.applyAeFailureBackoff fi
        ((leader.member fi).nextIndex - 1) (leader.member fi).nextIndex rsp →
      conflictNext? leader leader.oldestLogIndex rsp.conflictTerm
          rsp.conflictIndex ((leader.member fi).nextIndex - 1) =
        some (conflictNext leader leader.oldestLogIndex rsp.conflictTerm
          rsp.conflictIndex ((leader.member fi).nextIndex - 1)) ∧
      shared + 1 ≤ (after.member fi).nextIndex ∧
      (after.member fi).nextIndex < (leader.member fi).nextIndex) ∧
    ∀ rejections final,
      BackedOff follower fi leader rejections final →
      rejections ≤ (leader.member fi).nextIndex - (shared + 1) ∧
        ∀ plan,
          (∃ rsp, follower.TurnsDown (final.roundCall fi plan).req rsp) ∨
            follower.TakesUp (final.roundCall fi plan).req := by
  have answers :
      ∀ {server : Server},
        Backing server follower fi shared →
        ∀ plan,
          (follower.Lacks server ((server.member fi).nextIndex - 1) →
            ∃ rsp, follower.TurnsDown (server.roundCall fi plan).req rsp) ∧
          (¬ follower.Lacks server ((server.member fi).nextIndex - 1) →
            follower.TakesUp (server.roundCall fi plan).req) := by
    intro server backing plan
    obtain ⟨rejects, accepts⟩ := backing.pair.answers backing.role
      backing.sameTerm (backing.pair.leaderLog.length ▸ backing.ceiling) plan
    refine ⟨fun lacks => ?_, accepts⟩
    obtain ⟨rsp, -, rejected⟩ := rejects lacks
    exact ⟨rsp, rejected⟩
  refine ⟨answers backing, ?_, ?_⟩
  · rintro plan rsp after rejected rfl
    have ceiling := backing.ceiling
    have floor := backing.floor
    have length := backing.pair.leaderLog.length
    have log := backing.pair.leaderLog
    obtain ⟨-, above, below⟩ := backing.stepsBack rejected
      (applyAeFailureBackoff_stepsBack _ _ backing.inCluster rfl)
    refine ⟨conflictNext?_of_covered ⟨log.sentinel, ?_⟩ _ _ _ (by omega),
      above, below⟩
    show leader.raft.log.length ≤ leader.ring.tailLogIndex + 1
    rw [log.untrimmed]
    exact Nat.le_succ _
  · intro rejections final backedOff
    obtain ⟨last, fewer⟩ := backedOff.bounded backing
    refine ⟨fewer, fun plan => ?_⟩
    by_cases lacks : follower.Lacks final ((final.member fi).nextIndex - 1)
    · exact Or.inl ((answers last plan).1 lacks)
    · exact Or.inr ((answers last plan).2 lacks)

end

/-- A node of the second term with some entries behind the sentinel. -/
def untrimmedNode
    (role : ServerState)
    (terms : List Nat) :
    Server where
  raft := {
    currentTerm := 2
    id := 1
    state := role
    log := {} :: terms.map fun term => { term }
    cluster := [{ id := 1 }, { id := 2, nextIndex := 3 }]
    clusterIndex := 0 }
  ring := { RingLog.configure {} 2 with tailLogIndex := terms.length + 1 }

/-- Two logs that share their first entry. -/
theorem divergedPair :
    Backing (untrimmedNode .leader [1, 2]) (untrimmedNode .follower [1, 1])
      1 1 where
  pair := {
    leaderLog := ⟨by decide, rfl, by decide, by decide⟩
    followerLog := ⟨by decide, rfl, by decide, by decide⟩
    matching := by
      rintro (_ | _ | position) value inLeader inFollower
      · exact ⟨by decide, by decide, rfl⟩
      · cases inLeader
        cases inFollower
      · cases inLeader
    longest := by
      refine ⟨⟨by decide, by decide, rfl⟩, ?_⟩
      rintro count ⟨inLeader, -, same⟩
      by_contra longer
      have two : count = 2 := by
        have length : (untrimmedNode .leader [1, 2]).terms.length = 2 := rfl
        omega
      subst two
      revert same
      decide }
  role := rfl
  sameTerm := rfl
  inCluster := by decide
  confirmed := by decide
  floor := by decide
  ceiling := by decide

/-- The second entry is turned down, and the leader goes back to it. -/
theorem divergedPair_steps_back :
    ∃ rsp,
      (untrimmedNode .follower [1, 1]).TurnsDown
          ((untrimmedNode .leader [1, 2]).roundCall 1 {}).req rsp ∧
        (((untrimmedNode .leader [1, 2]).applyAeFailureBackoff 1 2 3
          rsp).member 1).nextIndex = 2 := by
  obtain ⟨answers, steps, -⟩ := backoff_converges divergedPair
  obtain ⟨rsp, rejected⟩ := (answers {}).1 ⟨by decide, Or.inr (by decide)⟩
  obtain ⟨-, above, below⟩ := steps {} rsp _ rejected rfl
  exact ⟨rsp, rejected, Nat.le_antisymm (Nat.le_of_lt_succ below) above⟩

end NvmeofRaft
