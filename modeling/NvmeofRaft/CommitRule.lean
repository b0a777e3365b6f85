import Mathlib.Order.Bounds.Basic
import NvmeofRaft.CommitSignal
import NvmeofRaft.Majority

namespace NvmeofRaft

/-!
# The commit rule

What `advance_commit_index` does in one call, for any cluster size and any
match indices: the middle of the descending sort is the greatest index that a
strict majority has reached.
-/

namespace Server

/-- The last index a node holds; the leader counts with its own log. -/
def reachedBy
    (server : Server)
    (node : Fin server.raft.cluster.length) :
    Nat :=
  if node.val = server.raft.clusterIndex then
    server.ring.tailLogIndex - 1
  else
    (server.raft.cluster.get node).matchIndex

/-- At least `n / 2 + 1` of the nodes have reached the index. -/
def MajorityReaches
    (server : Server)
    (logIdx : Nat) : Prop :=
  server.raft.cluster.length / 2 + 1 ≤
    (Finset.univ.filter fun node => logIdx ≤ server.reachedBy node).card

/-- A leader may commit up to the index. -/
structure MayCommit
    (server : Server)
    (logIdx : Nat) : Prop where
  higher : server.raft.commitIndex < logIdx
  inLog : logIdx < server.ring.tailLogIndex
  ownTerm : (server.logAt logIdx).term = server.raft.currentTerm

/--
The commit index has been raised and exactly the entries on the way have been
signalled; a signal that was dropped stays dropped.
-/
structure RaisedTo
    (before : Server)
    (logIdx : Nat)
    (after : Server) : Prop where
  raised :
    after = { before with
      raft := { before.raft with
        commitIndex := logIdx
        log := after.raft.log } }
  sentinel : after.raft.log.head? = before.raft.log.head?
  entries :
    ∀ index,
      after.entryView.entryAt? index =
        (before.entryView.entryAt? index).map fun entry =>
          if before.raft.commitIndex < index ∧ index ≤ logIdx then
            entry.signalCommitted
          else
            entry

end Server

section

variable {server : Server}

theorem matchIndices_length :
    server.matchIndices.length = server.raft.cluster.length := by
  rw [Server.matchIndices, List.length_mapIdx]

theorem matchIndices_reachedBy
    (node : Fin server.raft.cluster.length) :
    server.matchIndices.getD node 0 = server.reachedBy node := by
  rw [Server.matchIndices, List.getD_eq_getElem?_getD, List.getElem?_mapIdx,
    List.getElem?_eq_getElem node.isLt]
  rfl

/-- The majority index is the median of the match indices. -/
theorem majorityIndex_eq_median :
    server.majorityIndex = median server.matchIndices := by
  rw [Server.majorityIndex, median, List.length_insertionSort]

/-- The middle of the descending order is the greatest majority index. -/
theorem majorityIndex_isGreatest
    (members : 0 < server.raft.cluster.length) :
    IsGreatest { logIdx | server.MajorityReaches logIdx }
      server.majorityIndex := by
  have counted :
      ∀ logIdx,
        server.MajorityReaches logIdx ↔
          server.matchIndices.length / 2 + 1 ≤
            server.matchIndices.countP fun value =>
              decide (logIdx ≤ value) := by
    intro logIdx
    rw [Server.MajorityReaches, matchIndices_length,
      ← card_reaching matchIndices_length]
    simp only [matchIndices_reachedBy]
  rw [majorityIndex_eq_median]
  constructor
  · refine (counted _).mpr (count_median ?_)
    rw [matchIndices_length]
    exact members
  · intro logIdx reaches
    exact le_median ((counted _).mp reaches)

theorem signalCommittedFrom_head? :
    ∀ count first (server : Server),
      (signalCommittedFrom count first server).raft.log.head? =
        server.raft.log.head? := by
  intro count
  induction count with
  | zero =>
      intro first server
      rfl
  | succ count inductionHypothesis =>
      intro first server
      rw [signalCommittedFrom, inductionHypothesis]
      split
      · rename_i inLog
        have behind : server.logSlice first ≠ 0 := by
          rw [Server.logSlice, sub64_of_le (Nat.le_succ_of_le inLog.1)]
          omega
        simp only [Server.mapRaft, List.head?_eq_getElem?,
          List.getElem?_modify, behind, if_false]
        exact id_map _
      · rfl

/-- The signal loop changes nothing but the log. -/
theorem signalCommittedFrom_logOnly :
    ∀ count first (server : Server),
      signalCommittedFrom count first server =
        server.mapRaft fun raft =>
          { raft with
            log := (signalCommittedFrom count first server).raft.log } := by
  intro count first server
  obtain ⟨log, same⟩ := signalCommittedFrom_only count first server
  rw [same]
  rfl

/-- Committing raises the index and signals the entries below it. -/
theorem commitTo_raises
    {majorityIdx : Nat}
    (covered : server.entryView.Covered)
    (higher : server.raft.commitIndex < majorityIdx)
    (inLog : majorityIdx < server.ring.tailLogIndex) :
    server.RaisedTo majorityIdx (server.commitTo majorityIdx) := by
  obtain ⟨-, entries⟩ := signalCommittedFrom_entries
    (majorityIdx - server.raft.commitIndex) (server.raft.commitIndex + 1)
    (server.mapRaft fun raft => { raft with commitIndex := majorityIdx })
    ⟨covered.sentinel, covered.covered⟩
  refine ⟨signalCommittedFrom_logOnly _ _ _,
    signalCommittedFrom_head? _ _ _, fun index => ?_⟩
  refine (entries index).trans ?_
  have range :
      (server.raft.commitIndex + 1 ≤ index ∧
        index < server.raft.commitIndex + 1 +
          (majorityIdx - server.raft.commitIndex) ∧
        index < server.ring.tailLogIndex) ↔
        (server.raft.commitIndex < index ∧ index ≤ majorityIdx) := by
    omega
  show (server.entryView.entryAt? index).map (fun entry =>
    if server.raft.commitIndex + 1 ≤ index ∧
        index < server.raft.commitIndex + 1 +
          (majorityIdx - server.raft.commitIndex) ∧
        index < server.ring.tailLogIndex then
      entry.signalCommitted
    else
      entry) = _
  simp only [range]

/-- An uncommitted index is in memory. -/
theorem uncommitted_covered
    {logIdx : Nat}
    (held : server.oldestLogIndex ≤ server.raft.lastApplied)
    (applied : server.raft.lastApplied ≤ server.raft.commitIndex + 1)
    (fits : server.raft.log.length ≤ 2 ^ 64)
    (uncommitted : server.raft.commitIndex < logIdx)
    (inLog : logIdx < server.ring.tailLogIndex) :
    server.entryView.Covered := by
  have oldest :
      sub64 server.ring.tailLogIndex (server.raft.log.length - 1) ≤
        server.raft.lastApplied :=
    held
  have covered : server.raft.log.length - 1 ≤ server.ring.tailLogIndex := by
    by_contra wraps
    rw [sub64, if_neg wraps] at oldest
    omega
  rw [sub64_of_le covered] at oldest
  have sentinel : 0 < server.raft.log.length := by omega
  have bound : server.raft.log.length ≤ server.ring.tailLogIndex + 1 := by
    omega
  exact ⟨sentinel, bound⟩

/-- The commit index moves exactly when the majority index may be committed. -/
theorem advanceCommitIndex_decides
    (leader : server.raft.state = .leader) :
    wp advanceCommitIndex
      (fun _ final =>
        (server.MayCommit server.majorityIndex →
          final = server.commitTo server.majorityIndex) ∧
          (¬ server.MayCommit server.majorityIndex → final = server))
      (fun _ _ => False) server := by
  simp only [advanceCommitIndex, wp_bind, wp_get, wp_ite, wp_modify, wp_pure]
  split
  · rename_i allowed
    obtain ⟨-, higher, inLog, ownTerm⟩ := allowed
    exact ⟨fun _ => trivial, fun mayNot =>
      absurd ⟨higher, inLog, ownTerm⟩ mayNot⟩
  · rename_i refused
    exact ⟨fun may =>
      absurd ⟨leader, may.higher, may.inLog, may.ownTerm⟩ refused,
      fun _ => trivial⟩

/--
The commit rule, for any cluster and any leader whose applied entries reach
into memory: the commit index becomes the greatest index of a strict majority
if it is higher, in the log and of the current term, with exactly the newly
committed entries signalled; otherwise nothing changes.  Every index the call
may look at is inside the vector, whose length is a 64-bit number.
-/
theorem commit_rule
    (leader : server.raft.state = .leader)
    (members : 1 ≤ server.raft.cluster.length)
    (held : server.oldestLogIndex ≤ server.raft.lastApplied)
    (applied : server.raft.lastApplied ≤ server.raft.commitIndex + 1)
    (fits : server.raft.log.length ≤ 2 ^ 64) :
    ∃ majorityIdx after,
      IsGreatest { logIdx | server.MajorityReaches logIdx } majorityIdx ∧
        advanceCommitIndex.run server = .ok () after ∧
          (server.MayCommit majorityIdx →
            server.RaisedTo majorityIdx after) ∧
          (¬ server.MayCommit majorityIdx → after = server) ∧
          ∀ logIdx,
            server.raft.commitIndex < logIdx →
            logIdx < server.ring.tailLogIndex →
            server.logSlice logIdx < server.raft.log.length := by
  have greatest := majorityIndex_isGreatest members
  have inRange :
      ∀ logIdx,
        server.raft.commitIndex < logIdx →
        logIdx < server.ring.tailLogIndex →
        server.logSlice logIdx < server.raft.log.length := by
    intro logIdx uncommitted inLog
    have covered := uncommitted_covered held applied fits uncommitted inLog
    have inMemory : server.oldestLogIndex ≤ logIdx := by omega
    rw [Server.logSlice, sub64_of_le (Nat.le_succ_of_le inMemory)]
    exact covered.position_lt inMemory inLog
  have ends := advanceCommitIndex_decides leader
  unfold wp at ends
  cases ran : advanceCommitIndex.run server with
  | error exn after =>
      rw [ran] at ends
      exact ends.elim
  | ok value after =>
      rw [ran] at ends
      obtain ⟨commits, stays⟩ := ends
      refine ⟨_, after, greatest, rfl, fun may => ?_, stays, inRange⟩
      rw [commits may]
      exact commitTo_raises
        (uncommitted_covered held applied fits may.higher may.inLog)
        may.higher may.inLog

end

/-- A leader of three whose second entry one follower has received. -/
def waitingLeader : Server where
  raft := {
    currentTerm := 2
    id := 1
    state := .leader
    log := [{}, { term := 1 }, { command := [7], term := 2 }]
    cluster := [{ id := 1 }, { id := 2, matchIndex := 2 }, { id := 3 }]
    clusterIndex := 0
    lastApplied := 1 }
  ring := { RingLog.configure {} 2 with
    tailLogIndex := 3
    tailSlot := 2 }

/-- Both entries are committed and signalled. -/
theorem waitingLeader_commits :
    ∃ after,
      advanceCommitIndex.run waitingLeader = .ok () after ∧
        waitingLeader.RaisedTo 2 after := by
  obtain ⟨majorityIdx, after, greatest, ran, raised, -⟩ :=
    commit_rule (show waitingLeader.raft.state = .leader from rfl)
      (by decide) (by decide) (by decide) (by decide)
  have same : majorityIdx = 2 :=
    greatest.unique (majorityIndex_isGreatest
      (show 0 < waitingLeader.raft.cluster.length by decide))
  subst same
  exact ⟨after, ran, raised ⟨by decide, by decide, by decide⟩⟩

end NvmeofRaft
