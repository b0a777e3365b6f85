import Mathlib.Data.List.Induction
import NvmeofRaft.SectionDispatch

namespace NvmeofRaft

/-!
# What a section does to the entries

The log with whole entries, the indices over it and what has been applied.
Every step of a process, a restart aside, changes this part of the server in
one of the ways listed by `Process.EntryStep`.
-/

/-- The entries of a server, the indices over them and the applied commands. -/
structure EntryView where
  log : List Entry
  tail : Nat
  commit : Nat
  applied : Nat
  role : ServerState
  term : Nat
  commands : List (List UInt8)
  results : List (Nat × List UInt8)
  ringSlots : Nat

/-- The entry view of a server. -/
def Server.entryView (server : Server) : EntryView where
  log := server.raft.log
  tail := server.ring.tailLogIndex
  commit := server.raft.commitIndex
  applied := server.raft.lastApplied
  role := server.raft.state
  term := server.raft.currentTerm
  commands := server.statemachine
  results := server.results
  ringSlots := server.ring.ringSlots

namespace EntryView

/-- The oldest index in memory. -/
def oldest (view : EntryView) : Nat :=
  sub64 view.tail (view.log.length - 1)

/-- The demotion of `update_term`. -/
def demote
    (view : EntryView)
    (term : Nat) :
    EntryView :=
  { view with role := .follower, term }

/-- `update_term`. -/
def bump
    (view : EntryView)
    (term : Nat) :
    EntryView :=
  if view.term < term then view.demote term else view

/-- A candidate steps down before an append of its own term. -/
def stepDown
    (view : EntryView)
    (term : Nat) :
    EntryView :=
  if term = view.term ∧ view.role = .candidate then
    { view with role := .follower }
  else
    view

/-- The term and role with which the append handler goes on. -/
def meet
    (view : EntryView)
    (term : Nat) :
    EntryView :=
  (view.bump term).stepDown term

/-- The commit index update of the append handler. -/
def followCommit
    (view : EntryView)
    (leaderCommit : Nat) :
    EntryView :=
  { view with
    commit :=
      if view.commit < leaderCommit then
        min leaderCommit (view.tail - 1)
      else
        view.commit }

end EntryView

/-- The entries that the build loop of the append handler makes. -/
def deferredEntries
    (ringSlots skipEntries : Nat) :
    Nat → Nat → List EntryMeta → List Entry
  | _, _, [] =>
      []
  | index, slot, entryMeta :: rest =>
      let next := slot + slotsForEntry entryMeta.cmdLen
      let later := deferredEntries ringSlots skipEntries (index + 1)
        (if ringSlots ≤ next then 0 else next) rest
      if skipEntries ≤ index then
        { term := entryMeta.term
          ringSlot := slot
          cmdLen := entryMeta.cmdLen } :: later
      else
        later

/-- The log build of the append handler from the given slot on. -/
def EntryView.buildLog
    (view : EntryView)
    (slot : Nat)
    (req : AppendEntriesRequest)
    (newTail skipEntries : Nat) :
    EntryView :=
  if req.entryMetas.length = req.numEntries then
    { view with
      log := view.log ++
        deferredEntries view.ringSlots skipEntries 0 slot req.entryMetas
      tail := newTail + req.numEntries }
  else
    view

section

variable (server : Server)

theorem stepDown_entryView
    (req : AppendEntriesRequest) :
    (server.stepDown req).entryView = server.entryView.stepDown req.term :=
  apply_ite Server.entryView _ _ _

/-- The metas become deferred entries at consecutive slots. -/
theorem appendMetas_entryView
    (skipEntries : Nat) :
    ∀ (metas : List EntryMeta) (index : Nat) (server : Server),
      (appendMetas skipEntries index metas server).entryView =
        { server.entryView with
          log := server.entryView.log ++
            deferredEntries server.ring.ringSlots skipEntries index
              server.ring.tailSlot metas } := by
  intro metas
  induction metas with
  | nil =>
      intro index server
      simp [appendMetas, deferredEntries]
  | cons entryMeta rest inductionHypothesis =>
      intro index server
      rw [appendMetas, inductionHypothesis, deferredEntries]
      by_cases kept : skipEntries ≤ index
      · simp [appendMeta, kept, Server.entryView, Server.mapRaft,
          RingLog.passSlots]
      · simp [appendMeta, kept, Server.entryView, RingLog.passSlots]

theorem buildLog_entryView
    (req : AppendEntriesRequest)
    (newTail skipEntries : Nat) :
    (server.buildLog req newTail skipEntries).entryView =
      server.entryView.buildLog server.ring.tailSlot req newTail
        skipEntries := by
  unfold Server.buildLog EntryView.buildLog
  split
  · have built := appendMetas_entryView skipEntries req.entryMetas 0 server
    show { (appendMetas skipEntries 0 req.entryMetas server).entryView with
      tail := newTail + req.numEntries } = _
    rw [built]
    rfl
  · rfl

theorem bookAnswer_entryView
    (fi : Nat)
    (call : AppendCall)
    (answer : Option AppendEntriesResponse) :
    (server.bookAnswer fi call answer).entryView = server.entryView := by
  obtain ⟨cluster, same⟩ := bookAnswer_only server fi call answer
  rw [same]
  rfl

end

theorem persistCircular_entryView
    (writeLog : Bool)
    (nNewEntries : Nat) :
    Frames Server.entryView (persistCircular writeLog nNewEntries) :=
  (persistCircular_frames writeLog nNewEntries).coarsen Server.entryView
    fun _ => rfl

/-- The rule for a `persist_circular` call at the end of a section. -/
theorem wp_persist_entries
    {writeLog : Bool}
    {nNewEntries : Nat}
    {returns : Unit → Server → Prop}
    {throws : Exn → Server → Prop}
    {server : Server}
    (onReturn :
      ∀ final : Server,
        final.entryView = server.entryView → returns () final)
    (onThrow :
      ∀ exn (final : Server),
        final.entryView = server.entryView → throws exn final) :
    wp (persistCircular writeLog nNewEntries) returns throws server :=
  wp_mono ((persistCircular_entryView writeLog nNewEntries).ends server)
    (fun _ final same => onReturn final same)
    (fun exn final same => onThrow exn final same)

/-- A higher term changes role and term of the view. -/
theorem updateTerm_entries
    (msgTerm : Nat)
    (server : Server) :
    wp (updateTerm msgTerm)
      (fun bumped final =>
        bumped = decide (server.entryView.term < msgTerm) ∧
          final.entryView = server.entryView.bump msgTerm)
      (fun _ final =>
        server.entryView.term < msgTerm ∧
          final.entryView = server.entryView.bump msgTerm) server := by
  simp only [updateTerm, wp_bind, wp_get, wp_ite, wp_modify, wp_pure]
  by_cases higher : server.entryView.term < msgTerm
  · have demoted :
        (server.demote msgTerm).entryView =
          server.entryView.bump msgTerm := by
      rw [EntryView.bump, if_pos higher]
      rfl
    rw [if_pos (show server.raft.currentTerm < msgTerm from higher)]
    refine wp_persist_entries (fun final same => ?_) (fun _ final same => ?_)
    · exact ⟨(decide_eq_true higher).symm, same.trans demoted⟩
    · exact ⟨higher, same.trans demoted⟩
  · rw [if_neg (show ¬ server.raft.currentTerm < msgTerm from higher),
      EntryView.bump, if_neg higher]
    exact ⟨(decide_eq_false higher).symm, rfl⟩

/-- A vote reply changes the entries' view by its term only. -/
theorem requestVoteReply_entries
    (peerIndex : Nat)
    (req : RequestVoteRequest)
    (rsp : RequestVoteResponse)
    (server : Server) :
    wp (requestVoteReply peerIndex req rsp)
      (fun _ final => final.entryView = server.entryView.bump rsp.term)
      (fun _ final => final.entryView = server.entryView.bump rsp.term)
      server := by
  simp only [requestVoteReply, wp_bind]
  refine wp_mono (updateTerm_entries rsp.term server) ?_ ?_
  · rintro bumped middle ⟨-, same⟩
    cases bumped with
    | true =>
        exact same
    | false =>
        simp only [Bool.false_eq_true, if_false, wp_pure, wp_ite, wp_modify]
        split_ifs
        · exact same
        · exact same
        · exact same
  · exact fun _ _ ends => ends.2

/-- A vote request changes the entries' view by its term only. -/
theorem handleRequestVoteRequest_entries
    (req : RequestVoteRequest)
    (server : Server) :
    wp (handleRequestVoteRequest req)
      (fun _ final => final.entryView = server.entryView.bump req.term)
      (fun _ final => final.entryView = server.entryView.bump req.term)
      server := by
  simp only [handleRequestVoteRequest, wp_bind, wp_discard]
  refine wp_mono (updateTerm_entries req.term server) ?_ ?_
  · rintro _ middle ⟨-, same⟩
    simp only [wp_get, wp_ite, wp_pure, wp_bind, wp_modify]
    split_ifs
    · exact same
    · exact wp_persist_entries (fun _ kept => kept.trans same)
        (fun _ _ kept => kept.trans same)
    · exact same
  · exact fun _ _ ends => ends.2

/-- Finishing an append follows the leader's commit index. -/
theorem finishAppend_entries
    (req : AppendEntriesRequest)
    (rspTerm : Nat)
    (server : Server) :
    wp (finishAppend req rspTerm)
      (fun _ final =>
        final.entryView = server.entryView.followCommit req.leaderCommit)
      (fun _ final =>
        final.entryView = server.entryView.followCommit req.leaderCommit)
      server := by
  simp only [finishAppend, wp_bind, wp_modify, wp_pure]
  exact wp_persist_entries (fun _ same => same) (fun _ _ same => same)

/-- The entries at the end of the append handler. -/
def EntryView.complete
    (view : EntryView)
    (slot : Nat)
    (pending : PendingAppend) :
    EntryView :=
  (view.buildLog slot pending.req pending.newTail
    pending.skipEntries).followCommit pending.req.leaderCommit

/-- Behind the copy the entries are taken up. -/
theorem completeAppend_entries
    (pending : PendingAppend)
    (server : Server) :
    wp (completeAppend pending)
      (fun _ final =>
        final.entryView =
          server.entryView.complete server.ring.tailSlot pending)
      (fun _ final =>
        final.entryView =
          server.entryView.complete server.ring.tailSlot pending)
      server := by
  simp only [completeAppend, wp_bind, wp_modify]
  have finished := finishAppend_entries pending.req pending.rspTerm
    (server.buildLog pending.req pending.newTail pending.skipEntries)
  rw [buildLog_entryView] at finished
  exact finished

/-- What the first section of the append handler makes of the entries. -/
inductive EntryView.Handled
    (view : EntryView)
    (req : AppendEntriesRequest) :
    EntryView → Prop where
  | demoted :
      view.term < req.term →
      Handled view req (view.bump req.term)
  | met :
      Handled view req (view.meet req.term)
  | followed :
      (view.meet req.term).role = .follower →
      Handled view req
        ((view.meet req.term).followCommit req.leaderCommit)
  | completed
      {pending : PendingAppend} :
      (view.meet req.term).role = .follower →
      req.prevLogIndex = 0 ∨ req.prevLogIndex < view.tail →
      pending.req = req →
      pending.newTail = req.prevLogIndex + 1 →
      pending.skipEntries = view.tail - (req.prevLogIndex + 1) →
      pending.skipEntries < req.numEntries →
      Handled view req
        ((view.meet req.term).complete req.startSlot pending)

@[simp] theorem EntryView.meet_tail
    (view : EntryView)
    (term : Nat) :
    (view.meet term).tail = view.tail := by
  unfold EntryView.meet EntryView.stepDown EntryView.bump EntryView.demote
  split_ifs <;> rfl

/-- An accepted append takes its entries up or waits for the copy. -/
theorem acceptAppend_entries
    {view : EntryView}
    {req : AppendEntriesRequest}
    {server : Server}
    (met : server.entryView = view.meet req.term)
    (follower : server.raft.state = .follower)
    (reached :
      req.prevLogIndex = 0 ∨
        req.prevLogIndex < server.ring.tailLogIndex) :
    wp (acceptAppend req)
      (fun _ final => view.Handled req final.entryView)
      (fun _ final => view.Handled req final.entryView) server := by
  have role : (view.meet req.term).role = .follower := by
    rw [← met]
    exact follower
  have sameTail : server.ring.tailLogIndex = view.tail := by
    rw [← EntryView.meet_tail view req.term, ← met]
    rfl
  have followed :
      wp (finishAppend req server.raft.currentTerm)
        (fun _ final => view.Handled req final.entryView)
        (fun _ final => view.Handled req final.entryView) server := by
    refine wp_mono (finishAppend_entries req _ server) ?_ ?_
    · intro _ final ends
      rw [ends, met]
      exact .followed role
    · intro _ final ends
      rw [ends, met]
      exact .followed role
  simp only [acceptAppend, wp_bind, wp_get, wp_ite, wp_pure, modifyRing,
    wp_modify]
  split_ifs with known copies copied
  · exact followed
  · have reaches :
        view.tail - (req.prevLogIndex + 1) < req.numEntries := by
      rw [sameTail] at known
      omega
    have completed := completeAppend_entries
      { req := req
        rspTerm := server.raft.currentTerm
        newTail := req.prevLogIndex + 1
        skipEntries := server.ring.tailLogIndex - (req.prevLogIndex + 1) }
      { server with ring := { server.ring with tailSlot := req.startSlot } }
    refine wp_mono completed ?_ ?_
    · intro _ final ends
      rw [ends, sameTail]
      show view.Handled req (server.entryView.complete _ _)
      rw [met]
      exact .completed role (sameTail ▸ reached) rfl rfl rfl reaches
    · intro _ final ends
      rw [ends, sameTail]
      show view.Handled req (server.entryView.complete _ _)
      rw [met]
      exact .completed role (sameTail ▸ reached) rfl rfl rfl reaches
  · show view.Handled req server.entryView
    rw [met]
    exact .met
  · exact followed

/-- What an append request does to the entries. -/
theorem handleAppendEntriesRequest_entries
    (req : AppendEntriesRequest)
    (server : Server) :
    wp (handleAppendEntriesRequest req)
      (fun _ final => server.entryView.Handled req final.entryView)
      (fun _ final => server.entryView.Handled req final.entryView)
      server := by
  simp only [handleAppendEntriesRequest, wp_bind, wp_discard]
  refine wp_mono (updateTerm_entries req.term server) ?_ ?_
  · rintro _ middle ⟨-, bumps⟩
    have met :
        (middle.stepDown req).entryView = server.entryView.meet req.term := by
      rw [stepDown_entryView, bumps]
      rfl
    simp only [wp_modify, wp_get, wp_ite, wp_pure]
    split
    · rw [met]
      exact .met
    · rename_i passes
      have conflict := prevLogConflict_spec (middle.stepDown req) req
      cases checked : prevLogConflict (middle.stepDown req) req with
      | some rsp =>
          simp only [wp_pure]
          rw [met]
          exact .met
      | none =>
          rw [checked] at conflict
          refine acceptAppend_entries met ?_ ?_
          · exact by_contra fun other => passes (Or.inl other)
          · simp only [View.prevOk, Bool.or_eq_true, Bool.and_eq_true,
              decide_eq_true_eq] at conflict
            exact conflict.imp_right fun held => held.1
  · rintro exn final ⟨higher, bumps⟩
    rw [bumps]
    exact .demoted higher

/-- What the second section of the append handler makes of the entries. -/
theorem handleAppendEntriesFinish_entries
    (pending : PendingAppend)
    (copied : Bool)
    (server : Server) :
    wp (handleAppendEntriesFinish pending copied)
      (fun _ final =>
        final.entryView = server.entryView ∨
          copied = true ∧
            final.entryView =
              server.entryView.complete server.ring.tailSlot pending)
      (fun _ final =>
        copied = true ∧
          final.entryView =
            server.entryView.complete server.ring.tailSlot pending)
      server := by
  cases copied with
  | true =>
      refine wp_mono (completeAppend_entries pending server) ?_ ?_
      · exact fun _ _ ends => Or.inr ⟨rfl, ends⟩
      · exact fun _ _ ends => ⟨rfl, ends⟩
  | false =>
      exact Or.inl rfl

/-- The entries after an append at the tail. -/
def EntryView.push
    (view : EntryView)
    (entries : List Entry) :
    EntryView :=
  { view with
    log := view.log ++ entries
    tail := view.tail + entries.length }

/-- The entries that a request of a client appends. -/
def clientEntries
    (term sink : Nat)
    (commands : List (List UInt8)) :
    List Entry :=
  commands.map fun command => { command, term, resultSink := some sink }

/-- Client entries are pushed behind the log. -/
theorem appendCommands_entryView
    (sink : Nat) :
    ∀ (commands : List (List UInt8)) (server : Server),
      (server.appendCommands sink commands).entryView =
        server.entryView.push
          (clientEntries server.raft.currentTerm sink commands) := by
  intro commands
  induction commands with
  | nil =>
      intro server
      simp [Server.appendCommands, EntryView.push, clientEntries]
  | cons command rest inductionHypothesis =>
      intro server
      have step :
          server.appendCommands sink (command :: rest) =
            (server.pushEntry {
              command
              term := server.raft.currentTerm
              resultSink := some sink }).appendCommands sink rest :=
        rfl
      rw [step, inductionHypothesis]
      simp [EntryView.push, clientEntries, Server.pushEntry,
        Server.entryView]
      omega

/-- The rollback undoes the append, as long as the sentinel is there. -/
theorem popEntries_entryView
    {view : EntryView}
    (sentinel : 0 < view.log.length)
    (entries : List Entry) :
    ∀ server : Server,
      server.entryView = view.push entries →
      (server.popEntries entries.length).entryView = view := by
  induction entries using List.reverseRecOn with
  | nil =>
      intro server pushed
      rw [List.length_nil, Server.popEntries, pushed]
      simp [EntryView.push]
  | append_singleton rest last inductionHypothesis =>
      intro server pushed
      have log : server.raft.log = view.log ++ rest ++ [last] := by
        have logged := congrArg EntryView.log pushed
        simpa [Server.entryView, EntryView.push] using logged
      have tail :
          server.ring.tailLogIndex = view.tail + rest.length + 1 := by
        have counted := congrArg EntryView.tail pushed
        simpa [Server.entryView, EntryView.push, Nat.add_assoc] using counted
      have longer : 1 < server.raft.log.length := by
        simp only [log, List.length_append, List.length_singleton]
        omega
      rw [List.length_append, List.length_singleton, Server.popEntries,
        if_pos longer]
      apply inductionHypothesis
      have popped :
          { server.entryView with
            log := server.raft.log.dropLast
            tail := sub64 server.ring.tailLogIndex 1 } =
            view.push rest := by
        rw [log, tail, List.dropLast_concat,
          sub64_of_le (Nat.le_add_left 1 _), Nat.add_sub_cancel, pushed]
        rfl
      exact popped

/-- A client call pushes its entries, or changes nothing. -/
theorem applyCommands_entries
    (sink : Nat)
    (commands : List (List UInt8))
    {server : Server}
    (sentinel : 0 < server.entryView.log.length) :
    wp (applyCommands sink commands)
      (fun _ final =>
        final.entryView = server.entryView ∨
          server.entryView.role = .leader ∧
            final.entryView = server.entryView.push
              (clientEntries server.entryView.term sink commands))
      (fun _ _ => False) server := by
  have pushed := appendCommands_entryView sink commands server
  simp only [applyCommands, wp_bind, wp_get, wp_ite, wp_pure, wp_modify,
    wp_tryCatch]
  split_ifs with empty follower full
  · exact Or.inl trivial
  · exact Or.inl trivial
  · exact Or.inl trivial
  · refine wp_persist_entries (fun final same => ?_) (fun _ final same => ?_)
    · refine Or.inr ⟨?_, same.trans pushed⟩
      exact by_contra fun other => follower other
    · have undone := popEntries_entryView sentinel
        (clientEntries server.raft.currentTerm sink commands) final
        (same.trans pushed)
      rw [clientEntries, List.length_map] at undone
      exact Or.inl undone

/-- The commit index moves to the majority index, or not at all. -/
theorem advanceCommitIndex_entries
    (server : Server) :
    wp advanceCommitIndex
      (fun _ final =>
        final = server ∨
          server.raft.state = .leader ∧
            server.raft.commitIndex < server.majorityIndex ∧
              server.majorityIndex < server.ring.tailLogIndex ∧
                final = server.commitTo server.majorityIndex)
      (fun _ _ => False) server := by
  simp only [advanceCommitIndex, wp_bind, wp_get, wp_ite, wp_modify, wp_pure]
  split_ifs with allowed
  · exact Or.inr ⟨allowed.1, allowed.2.1, allowed.2.2.1, trivial⟩
  · exact Or.inl trivial

/-- A timeout starts an election, or changes nothing. -/
theorem timeout_entries
    (expired : Bool)
    (server : Server) :
    wp (timeout expired)
      (fun _ final =>
        final.entryView = server.entryView ∨
          final.entryView = server.startElection.entryView)
      (fun _ final =>
        final.entryView = server.startElection.entryView) server := by
  simp only [timeout, wp_bind, wp_ite, wp_modify, wp_pure]
  split_ifs
  · exact wp_persist_entries (fun _ same => Or.inr same) (fun _ _ same => same)
  · exact Or.inl trivial

/-- A won election promotes, any other call changes nothing. -/
theorem becomeLeader_entries
    (load : Nat → Option (List UInt8))
    (server : Server) :
    wp (becomeLeader load)
      (fun _ final =>
        final.entryView = server.entryView ∨
          server.quorumLeft = 0 ∧
            final.entryView = (server.promote load).entryView)
      (fun _ final =>
        server.quorumLeft = 0 ∧
          final.entryView = (server.promote load).entryView) server := by
  simp only [becomeLeader, wp_bind, wp_get, wp_ite, wp_modify, wp_pure]
  split_ifs with won
  · exact wp_persist_entries (fun _ same => Or.inr ⟨won, same⟩)
      (fun _ _ same => ⟨won, same⟩)
  · exact Or.inl trivial

theorem appendEntriesSend_entries
    (fi : Nat) :
    Frames Server.entryView (appendEntriesSend fi) := by
  refine Frames.bind (Frames.modifyState fun _ => rfl) fun _ => ?_
  refine Frames.bind Frames.get fun server => ?_
  refine Frames.ite (Frames.pure _) ?_
  refine Frames.bind ?_ fun plan => ?_
  · exact planRound_frames _ _
  · refine Frames.ite ?_ (Frames.pure _)
    exact Frames.bind (Frames.modifyState fun _ => rfl) fun _ => Frames.pure _

theorem appendEntriesReply_entries
    (fi : Nat)
    (call : AppendCall)
    (answer : Option AppendEntriesResponse) :
    Frames Server.entryView (appendEntriesReply fi call answer) :=
  Frames.modifyState fun server => bookAnswer_entryView server fi call answer

/-- The term in the message that an act brings. -/
def Act.msgTerm? : Act → Option Nat
  | .voteReply _ rsp => some rsp.term
  | .handleVote _ req => some req.term
  | _ => none

/--
What a step makes of the entries.  `server` is the server that the section
runs on; its entries are those of the process.
-/
inductive Process.EntryStep
    (proc : Process)
    (server : Server) :
    Act → EntryView → Prop where
  | kept
      {act : Act} :
      EntryStep proc server act server.entryView
  | bumped
      {act : Act}
      {term : Nat} :
      act.msgTerm? = some term →
      EntryStep proc server act (server.entryView.bump term)
  | handled
      {src : Nat}
      {req : AppendEntriesRequest}
      {after : EntryView} :
      server.entryView.Handled req after →
      EntryStep proc server (.handleAppend src req) after
  | finished
      {index src : Nat}
      {pending : PendingAppend} :
      proc.threads[index]? = some (.appendHandler src pending) →
      EntryStep proc server (.handleAppendFinish index true)
        (server.entryView.complete server.ring.tailSlot pending)
  | campaigned
      {state : ServerState}
      {expired : Bool}
      {load : Nat → Option (List UInt8)} :
      proc.main = .timeout state →
      EntryStep proc server (.main expired load)
        server.startElection.entryView
  | promoted
      {expired : Bool}
      {load : Nat → Option (List UInt8)} :
      proc.main = .becomeLeader →
      server.quorumLeft = 0 →
      EntryStep proc server (.main expired load)
        (server.promote load).entryView
  | committed
      {expired : Bool}
      {load : Nat → Option (List UInt8)} :
      proc.main = .advanceCommit →
      server.raft.state = .leader →
      server.raft.commitIndex < server.majorityIndex →
      server.majorityIndex < server.ring.tailLogIndex →
      EntryStep proc server (.main expired load)
        (server.commitTo server.majorityIndex).entryView
  | appended
      {sink : Nat}
      {commands : List (List UInt8)} :
      server.entryView.role = .leader →
      EntryStep proc server (.apply sink commands)
        (server.entryView.push
          (clientEntries server.entryView.term sink commands))
  | applied :
      EntryStep proc server .applyPending server.applyCommitted.entryView
  | collected :
      EntryStep proc server .slotGc server.collectGarbage.entryView

section

variable {proc : Process} {server : Server} {act : Act}

/-- The section of `main_loop`. -/
theorem mainBody_entries
    (expired : Bool)
    (load : Nat → Option (List UInt8)) :
    wp (proc.main.body expired load)
      (fun _ final =>
        proc.EntryStep server (.main expired load) final.entryView)
      (fun _ final =>
        proc.EntryStep server (.main expired load) final.entryView)
      server := by
  unfold MainPc.body
  split
  · rename_i pc
    refine wp_mono (advanceCommitIndex_entries server) ?_ ?_
    · rintro _ final (rfl | ⟨leader, above, inLog, rfl⟩)
      · exact .kept
      · exact .committed pc leader above inLog
    · exact fun _ _ never => never.elim
  · rename_i pc
    rw [wp_discard]
    refine wp_mono (timeout_entries expired server) ?_ ?_
    · rintro _ final (same | same)
      · rw [same]
        exact .kept
      · rw [same]
        exact .campaigned pc
    · intro _ final same
      rw [same]
      exact .campaigned pc
  · rename_i pc
    refine wp_mono (becomeLeader_entries load server) ?_ ?_
    · rintro _ final (same | ⟨won, same⟩)
      · rw [same]
        exact .kept
      · rw [same]
        exact .promoted pc won
    · rintro _ final ⟨won, same⟩
      rw [same]
      exact .promoted pc won
  · exact .kept

/-- A section that leaves the entries alone. -/
theorem entryStep_of_frames
    {body : Section Unit}
    (frames : Frames Server.entryView body) :
    wp body (fun _ final => proc.EntryStep server act final.entryView)
      (fun _ final => proc.EntryStep server act final.entryView) server := by
  refine wp_mono (frames.ends server) ?_ ?_
  · intro _ final same
    rw [same]
    exact .kept
  · intro _ final same
    rw [same]
    exact .kept

/-- The section of a thread. -/
theorem threadBody_entries
    {thread : Thread}
    (found :
      (act.thread?.bind fun index => proc.threads[index]?) = some thread) :
    wp (thread.body act)
      (fun _ final => proc.EntryStep server act final.entryView)
      (fun _ final => proc.EntryStep server act final.entryView)
      server := by
  unfold Thread.body
  split
  · exact entryStep_of_frames
      (Frames.bind Frames.get fun _ => Frames.pure _).discard
  · refine wp_mono (requestVoteReply_entries _ _ _ server) ?_ ?_
    · intro _ final same
      rw [same]
      exact .bumped rfl
    · intro _ final same
      rw [same]
      exact .bumped rfl
  · exact entryStep_of_frames (appendEntriesSend_entries _).discard
  · exact entryStep_of_frames (appendEntriesReply_entries _ _ _)
  · exact entryStep_of_frames (appendEntriesReply_entries _ _ _)
  · exact entryStep_of_frames (appendEntriesReply_entries _ _ _)
  · rw [wp_discard]
    refine wp_mono (handleAppendEntriesFinish_entries _ _ server) ?_ ?_
    · rintro _ final (same | ⟨rfl, same⟩)
      · rw [same]
        exact .kept
      · rw [same]
        exact .finished found
    · rintro _ final ⟨rfl, same⟩
      rw [same]
      exact .finished found
  · exact .kept

/-- Every section changes the entries in one of the listed ways. -/
theorem body_entries
    (sentinel : 0 < server.entryView.log.length) :
    wp (proc.body act)
      (fun _ final => proc.EntryStep server act final.entryView)
      (fun _ final => proc.EntryStep server act final.entryView)
      server := by
  unfold Process.body
  split
  · exact mainBody_entries _ _
  · rw [wp_discard]
    refine wp_mono (handleRequestVoteRequest_entries _ server) ?_ ?_
    · intro _ final same
      rw [same]
      exact .bumped rfl
    · intro _ final same
      rw [same]
      exact .bumped rfl
  · rw [wp_discard]
    refine wp_mono (handleAppendEntriesRequest_entries _ server) ?_ ?_
    · exact fun _ _ handled => .handled handled
    · exact fun _ _ handled => .handled handled
  · rw [wp_discard]
    refine wp_mono (applyCommands_entries _ _ sentinel) ?_ ?_
    · rintro _ final (same | ⟨leader, same⟩)
      · rw [same]
        exact .kept
      · rw [same]
        exact .appended leader
    · exact fun _ _ never => never.elim
  · exact .applied
  · exact .collected
  · split
    · rename_i found
      exact threadBody_entries found
    · exact .kept

/-- Every step but a restart changes the entries in one of the listed ways. -/
theorem Process.step_entries
    {outcomes : IoOutcomes}
    {result : Process × Outputs}
    (sentinel : 0 < proc.server.entryView.log.length)
    (stepped : proc.step outcomes act = some result)
    (noRestart : ∀ kernel cacheLost, act ≠ .restart kernel cacheLost) :
    proc.EntryStep (proc.server.withOutcomes outcomes) act
      result.1.server.entryView := by
  have spec :
      proc.BodySpec outcomes act
        (fun final =>
          proc.EntryStep (proc.server.withOutcomes outcomes) act
            final.entryView)
        (fun final =>
          proc.EntryStep (proc.server.withOutcomes outcomes) act
            final.entryView) :=
    body_entries sentinel
  rcases Process.step_ends spec stepped noRestart with
    unchanged | returned | ⟨threw, -⟩
  · rw [unchanged]
    exact .kept
  · exact returned
  · exact threw

end

end NvmeofRaft
