import NvmeofRaft.Cluster
import NvmeofRaft.Footprint
import NvmeofRaft.PersistFrame

namespace NvmeofRaft

/-!
# The consensus view of a server

The part of a server that the protocol arguments are about, with the log
reduced to its terms, and what the pure changes of the lock sections do to it.
-/

/-- What the protocol sees of a server. -/
structure View where
  id : Nat
  index : Nat
  term : Nat
  role : ServerState
  votes : List Nat
  nexts : List Nat
  matched : List Nat
  log : List Nat
  tail : Nat
  commit : Nat
  applied : Nat

/-- The view of a server; the log starts with the sentinel. -/
def Server.view (server : Server) : View where
  id := server.raft.id
  index := server.raft.clusterIndex
  term := server.raft.currentTerm
  role := server.raft.state
  votes := server.raft.cluster.map ClusterMember.votedFor
  nexts := server.raft.cluster.map ClusterMember.nextIndex
  matched := server.raft.cluster.map ClusterMember.matchIndex
  log := server.raft.log.map Entry.term
  tail := server.ring.tailLogIndex
  commit := server.raft.commitIndex
  applied := server.raft.lastApplied

namespace View

/-- The own vote. -/
def vote (view : View) : Nat :=
  view.votes.getD view.index 0

/-- The view after `set_voted_for`. -/
def withVote
    (view : View)
    (vote : Nat) :
    View :=
  { view with votes := view.votes.set view.index vote }

/-- The view after a demotion. -/
def demote
    (view : View)
    (msgTerm : Nat) :
    View :=
  { view with
    term := msgTerm
    role := .follower
    votes := view.votes.set view.index 0 }

/-- The view after `update_term`. -/
def bump
    (view : View)
    (msgTerm : Nat) :
    View :=
  if view.term < msgTerm then view.demote msgTerm else view

theorem bump_of_lt
    {view : View}
    {msgTerm : Nat}
    (higher : view.term < msgTerm) :
    view.bump msgTerm = view.demote msgTerm :=
  if_pos higher

/-- A term that is not higher changes nothing. -/
theorem bump_of_le
    {view : View}
    {msgTerm : Nat}
    (notHigher : msgTerm ≤ view.term) :
    view.bump msgTerm = view :=
  if_neg (Nat.not_lt.mpr notHigher)

/-- The view after a timeout has fired. -/
def elect (view : View) : View :=
  { view with
    role := .candidate
    term := view.term + 1
    votes := view.votes.mapIdx fun index _ =>
      if index = view.index then view.id else 0 }

/-- The view after a recorded vote. -/
def record
    (view : View)
    (peerIndex : Nat) :
    View :=
  { view with votes := view.votes.set peerIndex view.id }

/-- The view after a candidate has stepped down for a request. -/
def stepDown
    (view : View)
    (reqTerm : Nat) :
    View :=
  if reqTerm = view.term ∧ view.role = .candidate then
    { view with role := .follower }
  else
    view

/-- The terms in memory, without the sentinel. -/
def terms (view : View) : List Nat :=
  view.log.drop 1

/-- The term of the last entry, or zero. -/
def lastTerm (view : View) : Nat :=
  view.terms.getLastD 0

/-- The lowest index in memory. -/
def oldest (view : View) : Nat :=
  sub64 view.tail (view.log.length - 1)

/-- The term at an absolute index, as the source looks it up. -/
def termAt
    (view : View)
    (logIdx : Nat) :
    Nat :=
  view.log.getD (sub64 (logIdx + 1) view.oldest) 0

/-- The log comparison of the vote handler. -/
def logOk
    (view : View)
    (req : RequestVoteRequest) :
    Bool :=
  decide (view.lastTerm < req.lastLogTerm) ||
    (decide (req.lastLogTerm = view.lastTerm) &&
      decide (view.tail - 1 ≤ req.lastLogIndex))

/-- The `grant` test of the vote handler. -/
def grants
    (view : View)
    (req : RequestVoteRequest) :
    Bool :=
  decide (req.term = view.term) && view.logOk req &&
    (decide (view.vote = 0) || decide (view.vote = req.candidateId))

/-- What is left of the quorum after counting the recorded votes. -/
def quorumLeft (view : View) : Nat :=
  view.votes.foldl
    (fun quorum vote =>
      if vote = view.id ∧ 0 < quorum then quorum - 1 else quorum)
    (view.votes.length / 2 + 1)

/-- The view after an entry has been appended. -/
def push
    (view : View)
    (term : Nat) :
    View :=
  { view with log := view.log ++ [term], tail := view.tail + 1 }

/-- The view after a won election and the append of the no-op entry. -/
def promoted
    (view : View)
    (applied : Nat) :
    View :=
  { view with role := .leader, applied }.push view.term

/-- The view after the reset of the replication progress. -/
def resetProgress (view : View) : View :=
  { view with
    nexts := view.nexts.map fun _ => view.tail - 1
    matched := view.matched.map fun _ => 0 }

/-- How far an apply loop can have moved `last_applied`. -/
def Applies
    (view : View)
    (applied : Nat) : Prop :=
  view.applied ≤ applied ∧ applied ≤ max view.applied (view.commit + 1)

/-- The view after the handler's commit index update. -/
def followCommit
    (view : View)
    (leaderCommit : Nat) :
    View :=
  { view with
    commit :=
      if view.commit < leaderCommit then
        min leaderCommit (view.tail - 1)
      else
        view.commit }

/-- The view after the handler's log build. -/
def build
    (view : View)
    (req : AppendEntriesRequest)
    (newTail skipEntries : Nat) :
    View :=
  if req.entryMetas.length = req.numEntries then
    { view with
      log := view.log ++
        (req.entryMetas.drop skipEntries).map EntryMeta.term
      tail := newTail + req.numEntries }
  else
    view

/-- Whether the previous entry of a request passes the check. -/
def prevOk
    (view : View)
    (req : AppendEntriesRequest) :
    Bool :=
  decide (req.prevLogIndex = 0) ||
    (decide (req.prevLogIndex < view.tail) &&
      (decide (req.prevLogIndex < view.oldest) ||
        decide (view.termAt req.prevLogIndex = req.prevLogTerm)))

end View

/-- The values of a field after one member has changed. -/
theorem map_modify
    {α β : Type}
    {field : α → β}
    {change : α → α}
    (changed : β → β)
    (list : List α)
    (index : Nat)
    (commutes : ∀ item, field (change item) = changed (field item)) :
    (list.modify index change).map field =
      (list.map field).modify index changed := by
  apply List.ext_getElem?
  intro position
  simp only [List.getElem?_map, List.getElem?_modify]
  cases list[position]? with
  | none =>
      rfl
  | some item =>
      by_cases here : index = position <;> simp [here, commutes]

/-- A field that the change leaves alone has the same values. -/
theorem map_modify_same
    {α β : Type}
    {field : α → β}
    {change : α → α}
    (list : List α)
    (index : Nat)
    (kept : ∀ item, field (change item) = field item) :
    (list.modify index change).map field = list.map field := by
  rw [map_modify id list index kept]
  exact List.modify_id _ _

/-- A field that the change sets to a constant is set in the list. -/
theorem map_modify_set
    {α β : Type}
    {field : α → β}
    {change : α → α}
    {value : β}
    (list : List α)
    (index : Nat)
    (sets : ∀ item, field (change item) = value) :
    (list.modify index change).map field =
      (list.map field).set index value := by
  rw [map_modify (fun _ => value) list index sets]
  exact (List.set_eq_modify value index _).symm

/-- The value of a field after a change that depends on the whole member. -/
theorem map_modify_getD
    {α β : Type}
    {field : α → β}
    {change : α → α}
    (list : List α)
    (index : Nat)
    (fallback : α) :
    (list.modify index change).map field =
      (list.map field).set index
        (field (change (list.getD index fallback))) := by
  apply List.ext_getElem?
  intro position
  simp only [List.getElem?_map, List.getElem?_modify, List.getElem?_set,
    List.length_map, List.getD_eq_getElem?_getD]
  by_cases here : index = position
  · subst here
    cases found : list[index]? with
    | none =>
        have outside := List.getElem?_eq_none_iff.mp found
        simp [Nat.not_lt.mpr outside]
    | some item =>
        have inside := (List.getElem?_eq_some_iff.mp found).1
        simp [inside]
  · simp [here]

/-- A field that an indexed change leaves alone has the same values. -/
theorem map_mapIdx_same
    {α β : Type}
    {field : α → β}
    {change : Nat → α → α}
    (list : List α)
    (kept : ∀ index item, field (change index item) = field item) :
    (list.mapIdx change).map field = list.map field := by
  apply List.ext_getElem?
  intro position
  cases found : list[position]? <;>
    simp [List.getElem?_mapIdx, found, kept]

section

variable (server : Server)

theorem getVotedFor_eq :
    server.getVotedFor = server.view.vote := by
  simp only [Server.getVotedFor, View.vote, Server.view,
    List.getD_eq_getElem?_getD, List.getElem?_map]
  cases server.raft.cluster[server.raft.clusterIndex]? <;> rfl

theorem setVotedFor_view
    (vote : Nat) :
    (server.setVotedFor vote).view = server.view.withVote vote := by
  simp only [Server.setVotedFor, Server.view, View.withVote, View.mk.injEq,
    true_and, and_true]
  refine ⟨map_modify_set _ _ fun _ => rfl, ?_, ?_⟩
  · exact map_modify_same _ _ fun _ => rfl
  · exact map_modify_same _ _ fun _ => rfl

theorem startElection_view :
    server.startElection.view = server.view.elect := by
  simp only [Server.startElection, Server.mapRaft, Server.view, View.elect,
    View.mk.injEq, true_and, and_true]
  refine ⟨?_, map_mapIdx_same _ fun _ _ => rfl,
    map_mapIdx_same _ fun _ _ => rfl⟩
  apply List.ext_getElem?
  intro position
  simp only [List.getElem?_map, List.getElem?_mapIdx, Option.map_map]
  cases server.raft.cluster[position]? <;> rfl

theorem recordVote_view
    (peerIndex : Nat) :
    (server.recordVote peerIndex).view = server.view.record peerIndex := by
  simp only [Server.recordVote, Server.mapMember, Server.mapRaft,
    Server.view, View.record, View.mk.injEq, true_and, and_true]
  refine ⟨map_modify_set _ _ fun _ => rfl, ?_, ?_⟩
  · exact map_modify_same _ _ fun _ => rfl
  · exact map_modify_same _ _ fun _ => rfl

theorem demote_view
    (msgTerm : Nat) :
    (server.demote msgTerm).view = server.view.demote msgTerm := by
  rw [Server.demote, setVotedFor_view]
  rfl

theorem stepDown_view
    (req : AppendEntriesRequest) :
    (server.stepDown req).view = server.view.stepDown req.term := by
  unfold Server.stepDown View.stepDown
  exact apply_ite Server.view _ _ _

/-- Of a new entry the view keeps the term. -/
theorem pushEntry_view
    (entry : Entry) :
    (server.pushEntry entry).view = server.view.push entry.term := by
  simp [Server.pushEntry, Server.view, View.push]

theorem followCommit_view
    (leaderCommit : Nat) :
    (server.followCommit leaderCommit).view =
      server.view.followCommit leaderCommit :=
  rfl

/-- The last term is read off the view. -/
theorem lastLogTerm_eq :
    server.lastLogTerm = server.view.lastTerm := by
  simp only [Server.lastLogTerm, View.lastTerm, View.terms, Server.view]
  rcases server.raft.log with _ | ⟨sentinel, _ | ⟨entry, rest⟩⟩
  · rfl
  · rfl
  · simp only [List.length_cons, List.drop_succ_cons, List.drop_zero,
      List.map_cons, List.getLastD_cons]
    rw [if_pos (by omega), List.getLastD_eq_getLast?,
      List.getLastD_eq_getLast?, List.getLast?_map]
    cases rest.getLast? <;> rfl

theorem oldestLogIndex_eq :
    server.oldestLogIndex = server.view.oldest := by
  simp [Server.oldestLogIndex, View.oldest, Server.view]

/-- The term at an index is read off the view. -/
theorem logAt_term
    (logIdx : Nat) :
    (server.logAt logIdx).term = server.view.termAt logIdx := by
  simp only [Server.logAt, Server.logSlice, oldestLogIndex_eq, View.termAt]
  simp only [Server.view, List.getD_eq_getElem?_getD, List.getElem?_map]
  cases server.raft.log[sub64 (logIdx + 1) _]? <;> rfl

/-- Whether a vote is granted is read off the view. -/
theorem grants_eq
    (req : RequestVoteRequest) :
    server.grants req = server.view.grants req := by
  simp only [Server.grants, Server.logOk, lastLogTerm_eq, getVotedFor_eq]
  rfl

theorem quorumLeft_eq :
    server.quorumLeft = server.view.quorumLeft := by
  simp only [Server.quorumLeft, View.quorumLeft, Server.view,
    List.foldl_map, List.length_map]
  rfl

theorem rebuildSlotStatesFromMap_tailLogIndex
    (ring : RingLog) :
    (rebuildSlotStatesFromMap ring).tailLogIndex = ring.tailLogIndex := by
  obtain ⟨headSlot, same⟩ := recomputeHeadSlot_only
    { ring with logSlotMap := ring.logSlotMap.markUsing }
  rw [rebuildSlotStatesFromMap, same]

/-- Loading a command keeps the term. -/
theorem loadDeferred_term
    (load : Nat → Option (List UInt8))
    (entry : Entry) :
    (loadDeferred load entry).term = entry.term := by
  unfold loadDeferred
  split
  · split <;> rfl
  · rfl

theorem loadDeferredEntries_view
    (load : Nat → Option (List UInt8)) :
    (server.loadDeferredEntries load).view = server.view := by
  have sameTerms :
      (server.raft.log.take 1 ++
        (server.raft.log.drop 1).map (loadDeferred load)).map Entry.term =
          server.raft.log.map Entry.term := by
    simp only [List.map_append, List.map_map, Function.comp_def,
      loadDeferred_term]
    rw [← List.map_append, List.take_append_drop]
  simp only [Server.loadDeferredEntries, Server.mapRaft, Server.view,
    sameTerms]

/-- The apply loop of `become_leader` only moves `last_applied`. -/
theorem applyLoaded_view
    (oldest : Nat) :
    ∀ bound (server : Server),
      ∃ applied,
        server.view.Applies applied ∧
          (applyLoaded oldest bound server).view =
            { server.view with applied } := by
  intro bound
  induction bound with
  | zero =>
      intro server
      exact ⟨server.view.applied, ⟨le_refl _, le_max_left _ _⟩, rfl⟩
  | succ bound inductionHypothesis =>
      intro server
      unfold applyLoaded
      split
      · rename_i canApply
        obtain ⟨applied, ⟨lower, upper⟩, viewed⟩ := inductionHypothesis _
        refine ⟨applied, ⟨?_, ?_⟩, viewed⟩
        · exact Nat.le_of_succ_le lower
        · simp only [Server.canApply, Bool.and_eq_true,
            decide_eq_true_eq] at canApply
          simp only [Server.view] at upper ⊢
          omega
      · exact ⟨server.view.applied, ⟨le_refl _, le_max_left _ _⟩, rfl⟩

/--
A promotion applies a number of entries and changes nothing else in the view.
-/
theorem promote_view
    (load : Nat → Option (List UInt8)) :
    ∃ applied,
      server.view.Applies applied ∧
        (server.promote load).view = server.view.promoted applied := by
  have leadView :
      server.takeLead.view = { server.view with role := .leader } := by
    simp only [Server.takeLead, Server.view,
      rebuildSlotStatesFromMap_tailLogIndex]
  obtain ⟨applied, applies, appliedView⟩ :=
    applyLoaded_view
      (server.takeLead.loadDeferredEntries load).oldestLogIndex
      ((server.takeLead.loadDeferredEntries load).ring.tailLogIndex -
        (server.takeLead.loadDeferredEntries load).raft.lastApplied)
      (server.takeLead.loadDeferredEntries load)
  rw [loadDeferredEntries_view, leadView] at applies appliedView
  refine ⟨applied, applies, ?_⟩
  rw [Server.promote, pushEntry_view]
  show View.push (Server.applyLoadedEntries _).view
    (Server.applyLoadedEntries _).view.term = _
  rw [Server.applyLoadedEntries, appliedView]
  rfl

theorem resetProgress_view :
    server.resetProgress.view = server.view.resetProgress := by
  simp [Server.resetProgress, Server.mapRaft, Server.view,
    View.resetProgress]

/-- The build loop appends what is not skipped and keeps the rest. -/
theorem appendMetas_view
    (skipEntries : Nat) :
    ∀ (metas : List EntryMeta) (index : Nat) (server : Server),
      (appendMetas skipEntries index metas server).view =
        { server.view with
          log := server.view.log ++
            (metas.drop (skipEntries - index)).map EntryMeta.term } := by
  intro metas
  induction metas with
  | nil =>
      intro index server
      simp [appendMetas]
  | cons entryMeta rest inductionHypothesis =>
      intro index server
      rw [appendMetas, inductionHypothesis]
      by_cases kept : skipEntries ≤ index
      · have noSkip : skipEntries - index = 0 := by omega
        have noSkipNext : skipEntries - (index + 1) = 0 := by omega
        simp [appendMeta, kept, noSkip, noSkipNext, Server.mapRaft,
          Server.view, RingLog.passSlots]
      · have oneLess :
            skipEntries - index = skipEntries - (index + 1) + 1 := by
          omega
        simp [appendMeta, kept, oneLess, Server.view, RingLog.passSlots]

/-- The log that an append request builds, by its terms. -/
theorem buildLog_view
    (req : AppendEntriesRequest)
    (newTail skipEntries : Nat) :
    (server.buildLog req newTail skipEntries).view =
      server.view.build req newTail skipEntries := by
  unfold Server.buildLog View.build
  split
  · have built := appendMetas_view skipEntries req.entryMetas 0 server
    simp only [Nat.sub_zero] at built
    exact congrArg
      (fun view : View => { view with tail := newTail + req.numEntries }) built
  · rfl

/-- The consistency check refuses exactly what the view does not match. -/
theorem prevLogConflict_spec
    (req : AppendEntriesRequest) :
    match prevLogConflict server req with
    | none => server.view.prevOk req = true
    | some rsp =>
        server.view.prevOk req = false ∧ rsp.success = false ∧
          rsp.term = server.view.term := by
  unfold prevLogConflict View.prevOk
  simp only [logAt_term, oldestLogIndex_eq]
  have sameTail : server.ring.tailLogIndex = server.view.tail := rfl
  rw [sameTail]
  split_ifs with noPrev beyond differs
  · simp [noPrev]
  · exact ⟨by simp [noPrev, beyond], rfl, rfl⟩
  · exact ⟨by simp [noPrev, differs.1, differs.2], rfl, rfl⟩
  · have agrees :
        req.prevLogIndex < server.view.oldest ∨
          server.view.termAt req.prevLogIndex = req.prevLogTerm := by
      by_cases inMemory : server.view.oldest ≤ req.prevLogIndex
      · exact Or.inr (by_contra fun other => differs ⟨inMemory, other⟩)
      · exact Or.inl (Nat.not_le.mp inMemory)
    simp [noPrev, Nat.not_le.mp beyond, agrees]

end

end NvmeofRaft
