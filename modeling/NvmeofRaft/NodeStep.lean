import NvmeofRaft.Startup

namespace NvmeofRaft

/-!
# What a step of a node does

One relation lists the effect of every act on the view, the program counter,
the threads and the history of a node, with the messages it sends.  The
arguments about runs are case analyses of this relation; none of them looks
into a lock section again.
-/

/-- What the protocol arguments see of a process. -/
structure Node where
  view : View
  main : MainPc
  threads : List Thread
  halted : Bool
  history : List Event

/-- The node of a process. -/
def Process.node (proc : Process) : Node where
  view := proc.server.view
  main := proc.main
  threads := proc.threads
  halted := proc.halted
  history := proc.history

namespace View

/-- The other members, in cluster order. -/
def peers (view : View) : List Nat :=
  (List.range view.votes.length).filter fun index =>
    decide (index ≠ view.index)

/-- The vote request a node sends in this view. -/
def voteRequest (view : View) : RequestVoteRequest where
  term := view.term
  candidateId := view.id
  lastLogIndex := view.tail - 1
  lastLogTerm := view.lastTerm

/-- The answer to a vote request in this view. -/
def voteResponse
    (view : View)
    (req : RequestVoteRequest) :
    RequestVoteResponse where
  term := (view.bump req.term).term
  voteGranted := (view.bump req.term).grants req

/-- The view of a constructed server. -/
def constructed (view : View) : View where
  id := view.id
  index := view.index
  term := 0
  role := .follower
  votes := view.votes.map fun _ => 0
  nexts := view.nexts.map fun _ => 0
  matched := view.matched.map fun _ => 0
  log := []
  tail := 0
  commit := 0
  applied := 0

end View

/-- The event of a granted vote, if the answer grants one. -/
def grantEvents
    (req : RequestVoteRequest)
    (rsp : RequestVoteResponse) :
    List Event :=
  if rsp.voteGranted then [.voteGranted rsp.term req.candidateId] else []

/-- The event of an append handler that acted, if it did. -/
def acceptEvents
    (before after : View)
    (req : AppendEntriesRequest)
    (success : Bool) :
    List Event :=
  if success ∨ after.log.length ≠ before.log.length ∨
      after.commit ≠ before.commit then
    [.appendAccepted req after.role after.term]
  else
    []

/-- The call whose data the leader has copied itself. -/
def AppendCall.copied (call : AppendCall) : AppendCall :=
  { call with req := { call.req with dataAlreadyCopied := true } }

/--
The effect of an act on a node and the messages it sends.  `mapped` says which
log indices have a slot record before the step.
-/
inductive Node.Step
    (mapped : Nat → Prop)
    (node : Node) :
    Act → Node → Outputs → Prop where
  | readLeader
      {expired : Bool}
      {load : Nat → Option (List UInt8)} :
      node.main = .top →
      node.view.role = .leader →
      Step mapped node (.main expired load)
        { node with main := .heartbeat } []
  | readOther
      {expired : Bool}
      {load : Nat → Option (List UInt8)} :
      node.main = .top →
      node.view.role ≠ .leader →
      Step mapped node (.main expired load)
        { node with main := .timeout node.view.role } []
  | heartbeat
      {expired : Bool}
      {load : Nat → Option (List UInt8)} :
      node.main = .heartbeat →
      Step mapped node (.main expired load)
        { node with
          main := if expired then .appendEntries else .advanceCommit } []
  | spawnAppends
      {expired : Bool}
      {load : Nat → Option (List UInt8)} :
      node.main = .appendEntries →
      Step mapped node (.main expired load)
        { node with
          main := .advanceCommit
          threads := node.threads ++
            node.view.peers.map Thread.appendWorker } []
  | commitKept
      {expired : Bool}
      {load : Nat → Option (List UInt8)} :
      node.main = .advanceCommit →
      Step mapped node (.main expired load) { node with main := .top } []
  | commitRaised
      {expired : Bool}
      {load : Nat → Option (List UInt8)} :
      node.main = .advanceCommit →
      node.view.CanCommit →
      Step mapped node (.main expired load)
        { node with
          main := .top
          view := { node.view with commit := node.view.majority } } []
  | timeoutQuiet
      {state : ServerState}
      {load : Nat → Option (List UInt8)} :
      node.main = .timeout state →
      Step mapped node (.main false load)
        { node with main := .afterTimeout state } []
  | timeoutFired
      {state : ServerState}
      {load : Nat → Option (List UInt8)} :
      node.main = .timeout state →
      Step mapped node (.main true load)
        { node with main := .requestVote state, view := node.view.elect } []
  | timeoutThrew
      {state : ServerState}
      {load : Nat → Option (List UInt8)} :
      node.main = .timeout state →
      Step mapped node (.main true load)
        { node with halted := true, view := node.view.elect } []
  | spawnVotes
      {state : ServerState}
      {expired : Bool}
      {load : Nat → Option (List UInt8)} :
      node.main = .requestVote state →
      Step mapped node (.main expired load)
        { node with
          main := .afterTimeout state
          threads := node.threads ++
            node.view.peers.map Thread.voteWorker } []
  | electionOpen
      {expired : Bool}
      {load : Nat → Option (List UInt8)} :
      node.main = .becomeLeader →
      node.view.quorumLeft ≠ 0 →
      Step mapped node (.main expired load) { node with main := .top } []
  | electionWon
      {applied : Nat}
      {expired : Bool}
      {load : Nat → Option (List UInt8)} :
      node.main = .becomeLeader →
      node.view.quorumLeft = 0 →
      node.view.Applies applied →
      Step mapped node (.main expired load)
        { node with
          main := .top
          view := (node.view.promoted applied).resetProgress
          history := .becameLeader node.view.term :: node.history } []
  | electionThrew
      {applied : Nat}
      {expired : Bool}
      {load : Nat → Option (List UInt8)} :
      node.main = .becomeLeader →
      node.view.quorumLeft = 0 →
      node.view.Applies applied →
      Step mapped node (.main expired load)
        { node with
          halted := true
          view := node.view.promoted applied
          history := .becameLeader node.view.term :: node.history } []
  | voteSent
      {index peerIndex : Nat} :
      node.threads[index]? = some (.voteWorker peerIndex) →
      Step mapped node (.voteSend index)
        { node with
          threads := node.threads.set index
            (.voteCall peerIndex node.view.voteRequest)
          history := .voteBuilt node.view.voteRequest node.view.role
            node.view.vote :: node.history }
        [(peerIndex, .voteRequest node.view.voteRequest)]
  | voteCounted
      {index peerIndex : Nat}
      {req : RequestVoteRequest}
      {rsp : RequestVoteResponse} :
      node.threads[index]? = some (.voteCall peerIndex req) →
      Step mapped node (.voteReply index rsp)
        { node with
          view := node.view.reply peerIndex req rsp
          threads := node.threads.eraseIdx index } []
  | voteCountThrew
      {index peerIndex : Nat}
      {req : RequestVoteRequest}
      {rsp : RequestVoteResponse} :
      node.threads[index]? = some (.voteCall peerIndex req) →
      Step mapped node (.voteReply index rsp)
        { node with
          view := node.view.reply peerIndex req rsp
          halted := true } []
  | voteDropped
      {index peerIndex : Nat}
      {req : RequestVoteRequest} :
      node.threads[index]? = some (.voteCall peerIndex req) →
      Step mapped node (.voteDrop index)
        { node with threads := node.threads.eraseIdx index } []
  | appendHeld
      {index fi : Nat} :
      node.threads[index]? = some (.appendWorker fi) →
      Step mapped node (.appendSend index)
        { node with
          view := node.view.clampNext fi
          threads := node.threads.eraseIdx index } []
  | appendCopying
      {index fi : Nat}
      {call : AppendCall} :
      node.threads[index]? = some (.appendWorker fi) →
      (node.view.clampNext fi).Built fi call →
      (0 < call.lenEntries → mapped call.next) →
      Step mapped node (.appendSend index)
        { node with
          view := node.view.clampNext fi
          threads := node.threads.set index (.leaderCopy fi call)
          history := .appendBuilt call.req node.view.role :: node.history }
        []
  | appendSent
      {index fi : Nat}
      {call : AppendCall} :
      node.threads[index]? = some (.appendWorker fi) →
      (node.view.clampNext fi).Built fi call →
      (0 < call.lenEntries → mapped call.next) →
      Step mapped node (.appendSend index)
        { node with
          view := node.view.clampNext fi
          threads := node.threads.set index (.appendCall fi call)
          history := .appendBuilt call.req node.view.role :: node.history }
        [(fi, .appendRequest call.req)]
  | appendSendThrew
      {index fi : Nat} :
      node.threads[index]? = some (.appendWorker fi) →
      Step mapped node (.appendSend index)
        { node with view := node.view.clampNext fi, halted := true } []
  | leaderCopied
      {index fi : Nat}
      {call : AppendCall} :
      node.threads[index]? = some (.leaderCopy fi call) →
      Step mapped node (.leaderCopied index true)
        { node with
          threads := node.threads.set index (.appendCall fi call.copied) }
        [(fi, .appendRequest call.copied.req)]
  | leaderCopyFailed
      {index fi : Nat}
      {call : AppendCall} :
      node.threads[index]? = some (.leaderCopy fi call) →
      Step mapped node (.leaderCopied index false)
        { node with threads := node.threads.eraseIdx index } []
  | appendAnswered
      {index fi : Nat}
      {call : AppendCall}
      {rsp : AppendEntriesResponse}
      {view : View} :
      node.threads[index]? = some (.appendCall fi call) →
      node.view.Booked fi call (some rsp) view →
      Step mapped node (.appendReply index rsp)
        { node with view, threads := node.threads.eraseIdx index } []
  | appendDropped
      {index fi : Nat}
      {call : AppendCall} :
      node.threads[index]? = some (.appendCall fi call) →
      Step mapped node (.appendDrop index)
        { node with threads := node.threads.eraseIdx index } []
  | voteHandled
      {src : Nat}
      {req : RequestVoteRequest} :
      Step mapped node (.handleVote src req)
        { node with
          view := node.view.voted req
          history := grantEvents req (node.view.voteResponse req) ++
            node.history }
        [(src, .voteResponse req (node.view.voteResponse req))]
  | voteHandlerThrew
      {src : Nat}
      {req : RequestVoteRequest}
      {view : View} :
      view = node.view.bump req.term ∨ view = node.view.voted req →
      Step mapped node (.handleVote src req) { node with view } []
  | appendReplied
      {src : Nat}
      {req : AppendEntriesRequest}
      {rsp : AppendEntriesResponse}
      {view : View} :
      node.view.Handled req (some (.replied rsp)) view →
      Step mapped node (.handleAppend src req)
        { node with
          view
          history := acceptEvents node.view view req rsp.success ++
            node.history }
        [(src, .appendResponse req rsp)]
  | appendBegun
      {src : Nat}
      {req : AppendEntriesRequest}
      {pending : PendingAppend}
      {view : View} :
      node.view.Handled req (some (.copying pending)) view →
      Step mapped node (.handleAppend src req)
        { node with
          view
          threads := node.threads ++ [.appendHandler src pending] } []
  | appendHandlerThrew
      {src : Nat}
      {req : AppendEntriesRequest}
      {view : View} :
      node.view.Handled req none view →
      Step mapped node (.handleAppend src req)
        { node with
          view
          halted := true
          history := acceptEvents node.view view req false ++ node.history }
        []
  | appendFinished
      {index src : Nat}
      {pending : PendingAppend}
      {copied : Bool}
      {view : View} :
      node.threads[index]? = some (.appendHandler src pending) →
      view =
        (if copied then node.view.complete pending else node.view) →
      Step mapped node (.handleAppendFinish index copied)
        { node with
          view
          threads := node.threads.eraseIdx index
          history := acceptEvents node.view view pending.req copied ++
            node.history }
        [(src, .appendResponse pending.req
          { term := pending.rspTerm, success := copied })]
  | appendFinishThrew
      {index src : Nat}
      {pending : PendingAppend} :
      node.threads[index]? = some (.appendHandler src pending) →
      Step mapped node (.handleAppendFinish index true)
        { node with
          view := node.view.complete pending
          halted := true
          history :=
            acceptEvents node.view (node.view.complete pending) pending.req
              false ++ node.history }
        []
  | commandsRefused
      {sink : Nat}
      {commands : List (List UInt8)} :
      Step mapped node (.apply sink commands) node []
  | commandsAppended
      {sink : Nat}
      {commands : List (List UInt8)} :
      node.view.role = .leader →
      Step mapped node (.apply sink commands)
        { node with
          view := node.view.pushMany commands.length
          threads := node.threads ++ [.applier] } []
  | commandsSpawned
      {index : Nat} :
      node.threads[index]? = some .applier →
      Step mapped node (.applySpawn index)
        { node with
          threads := node.threads.eraseIdx index ++
            node.view.peers.map Thread.appendWorker } []
  | entriesApplied
      {applied : Nat} :
      node.view.Applies applied →
      Step mapped node .applyPending
        { node with view := { node.view with applied } } []
  | collected
      {removed : Nat} :
      node.view.Trims removed →
      Step mapped node .slotGc
        { node with view := node.view.trim removed } []
  | restarted
      {kernel : KernelAnswers}
      {cacheLost : Bool} :
      Step mapped node (.restart kernel cacheLost)
        { view := node.view.constructed.started
          main := .top
          threads := []
          halted := false
          history := .restarted node.view.term :: node.history } []
  | restartThrew
      {kernel : KernelAnswers}
      {cacheLost : Bool} :
      Step mapped node (.restart kernel cacheLost)
        { view := node.view.constructed
          main := .top
          threads := []
          halted := true
          history := .restarted node.view.term :: node.history } []

/-- What a process keeps in every run. -/
structure Process.Wellformed (proc : Process) : Prop where
  headerFits : headerSize ≤ proc.server.ring.fileSizeBytes
  positive : proc.server.SlotsPositive
  sentinel : proc.halted = false → proc.server.view.log ≠ []

section

variable {proc : Process} {outcomes : IoOutcomes}

theorem peers_eq
    (server : Server) :
    server.peers = server.view.peers := by
  unfold Server.peers View.peers Server.view
  rw [List.length_map]

theorem constructed_view
    (server : Server) :
    server.constructed.view = server.view.constructed := by
  simp [Server.constructed, Server.view, View.constructed,
    Function.comp_def]

theorem noteAccepted_history
    (proc : Process)
    (before : Server)
    (req : AppendEntriesRequest)
    (success : Bool) :
    (proc.noteAccepted before req success).history =
      acceptEvents before.view proc.server.view req success ++
        proc.history := by
  simp only [Process.noteAccepted, acceptEvents, Server.view,
    List.length_map]
  split_ifs <;> rfl

/-- Only the server and the history are touched. -/
theorem noteAccepted_node
    (proc : Process)
    (before : Server)
    (req : AppendEntriesRequest)
    (success : Bool) :
    (proc.noteAccepted before req success).node =
      { proc.node with
        history := acceptEvents before.view proc.server.view req success ++
          proc.history } := by
  have history := noteAccepted_history proc before req success
  simp only [Process.noteAccepted] at history ⊢
  split_ifs at history ⊢ <;> simp only [Process.node, Process.note,
    Node.mk.injEq, true_and] <;> exact history

/-- The slots of a process, as a predicate on log indices. -/
def Process.mapped
    (proc : Process)
    (logIdx : Nat) : Prop :=
  logIdx ∈ proc.server.ring.logSlotMap

/-- The relation at the two ends of a step of a process. -/
def Process.Does
    (proc : Process)
    (act : Act)
    (result : Process × Outputs) : Prop :=
  Node.Step proc.mapped proc.node act result.1.node result.2

theorem halt_node
    (proc : Process) :
    proc.halt.node = { proc.node with halted := true } :=
  rfl

/-- A step whose node is one that the relation lists. -/
theorem Process.Does.of_node
    {act : Act}
    {result : Process × Outputs}
    {node : Node}
    (step : proc.node.Step proc.mapped act node result.2)
    (same : result.1.node = node) :
    proc.Does act result := by
  unfold Process.Does
  rw [same]
  exact step

theorem stepMain_does
    (expired : Bool)
    (load : Nat → Option (List UInt8)) :
    proc.Does (.main expired load) (proc.stepMain outcomes expired load) := by
  unfold Process.stepMain
  cases pc : proc.main with
  | top =>
      dsimp only
      split
      · exact .readLeader pc ‹_›
      · exact .readOther pc fun leader => ‹_ → False› leader
  | heartbeat =>
      exact .heartbeat pc
  | appendEntries =>
      refine .of_node (.spawnAppends pc) ?_
      simp [Process.spawnAppends, Process.spawn, Process.goto, peers_eq,
        Process.node]
  | advanceCommit =>
      refine execOrHalt_wp (proc.Does _) (advanceCommitIndex_spec _) ?_ ?_
      · rintro _ server (kept | ⟨can, raised⟩)
        · refine .of_node (.commitKept pc) ?_
          simp only [Process.goto, Process.node, kept]
          rfl
        · refine .of_node (.commitRaised pc can) ?_
          simp only [Process.goto, Process.node, raised]
          rfl
      · exact fun _ _ impossible => impossible.elim
  | timeout state =>
      cases expired with
      | false =>
          refine execOrHalt_wp (proc.Does _) (timeout_spec false _) ?_ ?_
          · rintro _ server ⟨rfl, kept⟩
            refine .of_node (.timeoutQuiet pc) ?_
            simp only [Process.goto, Process.node, kept]
            rfl
          · rintro _ server ⟨impossible, -⟩
            cases impossible
      | true =>
          refine execOrHalt_wp (proc.Does _) (timeout_spec true _) ?_ ?_
          · rintro _ server ⟨rfl, fired⟩
            refine .of_node (.timeoutFired pc) ?_
            simp only [Process.goto, Process.node, fired]
            rfl
          · rintro _ server ⟨-, fired⟩
            refine .of_node (.timeoutThrew pc) ?_
            simp only [Process.halt, Process.node, fired]
            rfl
  | requestVote state =>
      refine .of_node (.spawnVotes pc) ?_
      simp [Process.spawnVotes, Process.spawn, Process.goto, peers_eq,
        Process.node]
  | becomeLeader =>
      dsimp only
      rw [quorumLeft_eq]
      have spec := becomeLeader_spec load (proc.server.withOutcomes outcomes)
      have same :
          (proc.server.withOutcomes outcomes).view = proc.server.view := rfl
      rw [same] at spec
      by_cases won : proc.server.view.quorumLeft = 0
      · rw [if_pos won]
        refine execOrHalt_wp (proc.Does _) spec ?_ ?_
        · intro _ server ends
          rw [if_pos won] at ends
          obtain ⟨applied, applies, promoted⟩ := ends
          refine .of_node (.electionWon pc won applies) ?_
          simp only [Process.goto, Process.node, promoted]
          rfl
        · rintro _ server ⟨-, applied, applies, promoted⟩
          refine .of_node (.electionThrew pc won applies) ?_
          simp only [Process.halt, Process.node, promoted]
          rfl
      · rw [if_neg won]
        refine execOrHalt_wp (proc.Does _) spec ?_ ?_
        · intro _ server ends
          rw [if_neg won] at ends
          refine .of_node (.electionOpen pc won) ?_
          simp only [Process.goto, Process.node, ends]
        · rintro _ server ⟨impossible, -⟩
          exact absurd impossible won

/-- The append handler's two ways to end with a reply. -/
theorem stepHandleAppend_does
    (src : Nat)
    (req : AppendEntriesRequest) :
    proc.Does (.handleAppend src req)
      (proc.stepHandleAppend outcomes src req) := by
  refine exec_wp (proc.Does _)
    (handleAppendEntriesRequest_spec req (proc.server.withOutcomes outcomes))
    ?_ ?_
  · intro progress server handled
    cases progress with
    | replied rsp =>
        refine .of_node (.appendReplied handled) ?_
        simp only [Process.replyAppend, noteAccepted_node]
        rfl
    | copying pending =>
        exact .of_node (.appendBegun handled) rfl
  · intro _ server handled
    refine .of_node (.appendHandlerThrew handled) ?_
    rw [halt_node, noteAccepted_node]
    rfl

theorem stepHandleAppendFinish_does
    {index src : Nat}
    {pending : PendingAppend}
    (found : proc.threads[index]? = some (.appendHandler src pending))
    (copied : Bool) :
    proc.Does (.handleAppendFinish index copied)
      (proc.stepHandleAppendFinish outcomes index src pending copied) := by
  refine exec_wp (proc.Does _)
    (handleAppendEntriesFinish_spec pending copied
      (proc.server.withOutcomes outcomes)) ?_ ?_
  · rintro _ server ⟨rfl, viewed⟩
    refine .of_node (.appendFinished found viewed) ?_
    simp only [Process.replyAppend, noteAccepted_node]
    rfl
  · rintro _ server ⟨rfl, viewed⟩
    refine .of_node (.appendFinishThrew found) ?_
    rw [halt_node, noteAccepted_node]
    simp only [Process.node, viewed]
    rfl

theorem stepHandleVote_does
    (src : Nat)
    (req : RequestVoteRequest) :
    proc.Does (.handleVote src req)
      (proc.stepHandleVote outcomes src req) := by
  refine exec_wp (proc.Does _)
    (handleRequestVoteRequest_spec req (proc.server.withOutcomes outcomes))
    ?_ ?_
  · rintro rsp server ⟨answer, viewed⟩
    have same : rsp = proc.server.view.voteResponse req := answer
    subst same
    refine .of_node .voteHandled ?_
    by_cases granted : (proc.server.view.voteResponse req).voteGranted = true
    · simp only [Process.node, Process.note, grantEvents, granted, if_true,
        viewed]
      rfl
    · simp only [Process.node, grantEvents, granted, Bool.false_eq_true,
        if_false, viewed]
      rfl
  · intro _ server viewed
    exact .of_node (.voteHandlerThrew viewed) rfl

theorem stepApply_does
    (sink : Nat)
    (commands : List (List UInt8))
    (sentinel : proc.server.view.log ≠ []) :
    proc.Does (.apply sink commands)
      (proc.stepApply outcomes sink commands) := by
  have spec := applyCommands_spec sink commands
    (show (proc.server.withOutcomes outcomes).view.log ≠ [] from sentinel)
  refine execOrHalt_wp (proc.Does _) spec ?_ ?_
  · rintro outcome server (⟨refused, kept⟩ | ⟨rfl, leader, pushed⟩)
    · refine .of_node .commandsRefused ?_
      simp only [if_neg refused, Process.node, kept]
      rfl
    · refine .of_node (.commandsAppended leader) ?_
      simp only [if_true, Process.spawn, Process.node, pushed]
      rfl
  · exact fun _ _ impossible => impossible.elim

theorem stepAppendSend_does
    {index fi : Nat}
    (found : proc.threads[index]? = some (.appendWorker fi))
    (positive : proc.server.SlotsPositive) :
    proc.Does (.appendSend index)
      (proc.stepAppendSend outcomes index fi) := by
  have spec := appendEntriesSend_spec fi
    (show (proc.server.withOutcomes outcomes).SlotsPositive from positive)
  refine execOrHalt_wp (proc.Does _) spec ?_ ?_
  · rintro built server ⟨viewed, calls⟩
    cases built with
    | none =>
        refine .of_node (.appendHeld found) ?_
        simp only [Process.endThread, Process.node, viewed]
        rfl
    | some call =>
        obtain ⟨request, mapped⟩ := calls call rfl
        have role : server.raft.state = proc.server.view.role :=
          congrArg View.role viewed
        dsimp only
        split
        · refine .of_node (.appendCopying found request mapped) ?_
          simp only [Process.setThread, Process.note, Process.node, viewed,
            role]
          rfl
        · refine .of_node (.appendSent found request mapped) ?_
          simp only [Process.setThread, Process.note, Process.node, viewed,
            role]
          rfl
  · intro _ server viewed
    refine .of_node (.appendSendThrew found) ?_
    simp only [Process.halt, Process.node, viewed]
    rfl

/-- A failed call changes nothing the protocol sees. -/
theorem View.Booked.of_none
    {view final : View}
    {fi : Nat}
    {call : AppendCall}
    (booked : view.Booked fi call none final) :
    final = view := by
  cases booked
  rfl

theorem stepThread_does
    {act : Act}
    {index : Nat}
    {thread : Thread}
    {result : Process × Outputs}
    (positive : proc.server.SlotsPositive)
    (position : act.thread? = some index)
    (found : proc.threads[index]? = some thread)
    (stepped :
      proc.stepThread outcomes act (some thread) = some result) :
    proc.Does act result := by
  have failed :
      ∀ {fi call},
        proc.threads[index]? = some thread →
        wp (appendEntriesReply fi call none)
          (fun _ final => final.view = proc.server.view)
          (fun _ _ => False) (proc.server.withOutcomes outcomes) :=
    fun _ => wp_mono (appendEntriesReply_spec _ _ none _)
      (fun _ _ booked => booked.of_none) fun _ _ impossible => impossible
  unfold Process.stepThread at stepped
  split at stepped <;> rename_i same <;> cases stepped <;> cases same <;>
    cases position
  · refine execOrHalt_wp (proc.Does _) (requestVoteSend_spec _) ?_
      fun _ _ impossible => impossible.elim
    rintro _ server ⟨rfl, rfl⟩
    refine .of_node (.voteSent found) ?_
    simp only [Process.note, Process.setThread, Process.node, getVotedFor_eq]
    rfl
  · refine execOrHalt_wp (proc.Does _) (requestVoteReply_spec _ _ _ _) ?_ ?_
    · intro _ server viewed
      refine .of_node (.voteCounted found) ?_
      simp only [Process.endThread, Process.node, viewed]
      rfl
    · intro _ server viewed
      refine .of_node (.voteCountThrew found) ?_
      simp only [Process.halt, Process.node, viewed]
      rfl
  · exact .of_node (.voteDropped found) rfl
  · exact stepAppendSend_does found positive
  · rename_i copied fi call
    unfold Process.stepLeaderCopied
    cases copied with
    | true =>
        exact .of_node (.leaderCopied found) rfl
    | false =>
        simp only [Bool.false_eq_true, if_false, Process.stepAppendReply]
        refine execOrHalt_wp (proc.Does _) (failed found) ?_
          fun _ _ impossible => impossible.elim
        intro _ server viewed
        refine .of_node (.leaderCopyFailed found) ?_
        simp only [Process.endThread, Process.node, viewed]
  · refine execOrHalt_wp (proc.Does _) (appendEntriesReply_spec _ _ _ _) ?_
      fun _ _ impossible => impossible.elim
    intro _ server booked
    exact .of_node (.appendAnswered found booked) rfl
  · refine execOrHalt_wp (proc.Does _) (failed found) ?_
      fun _ _ impossible => impossible.elim
    intro _ server viewed
    refine .of_node (.appendDropped found) ?_
    simp only [Process.endThread, Process.node, viewed]
  · exact stepHandleAppendFinish_does found _
  · refine .of_node (.commandsSpawned found) ?_
    simp [Process.spawnAppends, Process.spawn, Process.endThread, peers_eq,
      Process.node]

theorem stepRestart_does
    (kernel : KernelAnswers)
    (cacheLost : Bool)
    (headerFits : headerSize ≤ proc.server.ring.fileSizeBytes) :
    proc.Does (.restart kernel cacheLost)
      (proc.stepRestart outcomes kernel cacheLost) := by
  have spec :
      wp (initStorage kernel)
        (fun _ final => final.view = proc.server.view.constructed.started)
        (fun _ final => final.view = proc.server.view.constructed)
        ({ proc.server with
          io := { proc.server.io with
            file :=
              if cacheLost then
                proc.server.io.stable
              else
                proc.server.io.file } }.constructed.withOutcomes
          outcomes) := by
    rw [← constructed_view]
    exact wp_mono (initStorage_spec kernel headerFits)
      (fun _ _ started => started.1) fun _ _ kept => kept
  refine execOrHalt_wp (proc.Does _) spec ?_ ?_
  · intro _ server viewed
    refine .of_node .restarted ?_
    simp only [Process.node, viewed]
    rfl
  · intro _ server viewed
    refine .of_node .restartThrew ?_
    simp only [Process.halt, Process.node, viewed]
    rfl

/-- Every step of a well-formed process is listed. -/
theorem Process.step_does
    {act : Act}
    {result : Process × Outputs}
    (wellformed : proc.Wellformed)
    (stepped : proc.step outcomes act = some result) :
    proc.Does act result := by
  unfold Process.step at stepped
  split at stepped
  · cases stepped
    exact stepRestart_does _ _ wellformed.headerFits
  · split at stepped
    · cases stepped
    · rename_i running
      have sentinel := wellformed.sentinel (by simpa using running)
      split at stepped
      · cases stepped
        exact stepMain_does _ _
      · cases stepped
        exact stepHandleVote_does _ _
      · cases stepped
        exact stepHandleAppend_does _ _
      · cases stepped
        exact stepApply_does _ _ sentinel
      · cases stepped
        refine execOrHalt_wp (proc.Does _) (applyPending_spec _) ?_
          fun _ _ impossible => impossible.elim
        rintro _ server ⟨applied, applies, viewed⟩
        refine .of_node (.entriesApplied applies) ?_
        simp only [Process.node, viewed]
        rfl
      · cases stepped
        refine execOrHalt_wp (proc.Does _) (doSlotGc_spec _) ?_
          fun _ _ impossible => impossible.elim
        rintro _ server ⟨removed, trims, viewed⟩
        refine .of_node (.collected trims) ?_
        simp only [Process.node, viewed]
        rfl
      · cases position : act.thread? with
        | none =>
            rw [position] at stepped
            cases act <;> cases stepped
        | some index =>
            rw [position] at stepped
            simp only [Option.bind_some] at stepped
            cases found : proc.threads[index]? with
            | none =>
                rw [found] at stepped
                cases act <;> cases stepped
            | some thread =>
                rw [found] at stepped
                exact stepThread_does wellformed.positive position found
                  stepped

/-- The act brings a crashed process back. -/
def Act.isRestart : Act → Bool
  | .restart _ _ => true
  | _ => false

theorem Act.not_restart
    {act : Act}
    (stays : act.isRestart = false)
    (kernel : KernelAnswers)
    (cacheLost : Bool) :
    act ≠ .restart kernel cacheLost := by
  rintro rfl
  cases stays

/-- Only a restart is possible once the process has halted. -/
theorem Process.running_of_step
    {act : Act}
    {result : Process × Outputs}
    (stepped : proc.step outcomes act = some result)
    (noRestart : ∀ kernel cacheLost, act ≠ .restart kernel cacheLost) :
    proc.halted = false := by
  unfold Process.step at stepped
  split at stepped
  · exact absurd rfl (noRestart _ _)
  · split at stepped
    · cases stepped
    · rename_i running
      simpa using running

end

/-- A thread that a step starts or brings to its next section. -/
inductive Node.NewThread
    (mapped : Nat → Prop)
    (node after : Node) :
    Act → Thread → Prop where
  | heartbeatWorker
      {fi : Nat}
      {expired : Bool}
      {load : Nat → Option (List UInt8)} :
      fi ∈ node.view.peers →
      node.main = .appendEntries →
      NewThread mapped node after (.main expired load) (.appendWorker fi)
  | commandWorker
      {fi index : Nat} :
      fi ∈ node.view.peers →
      .applier ∈ node.threads →
      NewThread mapped node after (.applySpawn index) (.appendWorker fi)
  | voteWorker
      {peerIndex : Nat}
      {state : ServerState}
      {expired : Bool}
      {load : Nat → Option (List UInt8)} :
      peerIndex ∈ node.view.peers →
      node.main = .requestVote state →
      NewThread mapped node after (.main expired load) (.voteWorker peerIndex)
  | voteCall
      {peerIndex index : Nat} :
      .voteWorker peerIndex ∈ node.threads →
      NewThread mapped node after (.voteSend index)
        (.voteCall peerIndex node.view.voteRequest)
  | leaderCopy
      {fi index : Nat}
      {call : AppendCall} :
      .appendWorker fi ∈ node.threads →
      (node.view.clampNext fi).Built fi call →
      (0 < call.lenEntries → mapped call.next) →
      .appendBuilt call.req node.view.role ∈ after.history →
      NewThread mapped node after (.appendSend index) (.leaderCopy fi call)
  | appendCall
      {fi index : Nat}
      {call : AppendCall} :
      .appendWorker fi ∈ node.threads →
      (node.view.clampNext fi).Built fi call →
      (0 < call.lenEntries → mapped call.next) →
      .appendBuilt call.req node.view.role ∈ after.history →
      NewThread mapped node after (.appendSend index) (.appendCall fi call)
  | copiedCall
      {fi index : Nat}
      {call : AppendCall} :
      .leaderCopy fi call ∈ node.threads →
      NewThread mapped node after (.leaderCopied index true)
        (.appendCall fi call.copied)
  | appendHandler
      {src : Nat}
      {req : AppendEntriesRequest} :
      (node.view.meet req.term).Accepts req →
      (node.view.meet req.term).Extends req →
      after.view = node.view.meet req.term →
      NewThread mapped node after (.handleAppend src req)
        (.appendHandler src ((node.view.meet req.term).pending req))
  | applier
      {sink : Nat}
      {commands : List (List UInt8)} :
      node.view.role = .leader →
      NewThread mapped node after (.apply sink commands) .applier

/-- Every thread after a step was there before or is a new one. -/
theorem Node.Step.thread_origin
    {mapped : Nat → Prop}
    {node after : Node}
    {act : Act}
    {outputs : Outputs}
    {thread : Thread}
    (step : node.Step mapped act after outputs)
    (held : thread ∈ after.threads) :
    thread ∈ node.threads ∨
      node.NewThread mapped after act thread := by
  have erased :
      ∀ {index : Nat}, thread ∈ node.threads.eraseIdx index →
        thread ∈ node.threads ∨ node.NewThread mapped after act thread :=
    fun member => Or.inl (List.mem_of_mem_eraseIdx member)
  cases step with
  | spawnAppends pc =>
      rcases List.mem_append.mp held with old | new
      · exact Or.inl old
      · obtain ⟨fi, peer, rfl⟩ := List.mem_map.mp new
        exact Or.inr (.heartbeatWorker peer pc)
  | spawnVotes pc =>
      rcases List.mem_append.mp held with old | new
      · exact Or.inl old
      · obtain ⟨peerIndex, peer, rfl⟩ := List.mem_map.mp new
        exact Or.inr (.voteWorker peer pc)
  | voteSent found =>
      rcases List.mem_or_eq_of_mem_set held with old | rfl
      · exact Or.inl old
      · exact Or.inr (.voteCall (List.mem_of_getElem? found))
  | appendCopying found built slots =>
      rcases List.mem_or_eq_of_mem_set held with old | rfl
      · exact Or.inl old
      · exact Or.inr (.leaderCopy (List.mem_of_getElem? found) built slots
          List.mem_cons_self)
  | appendSent found built slots =>
      rcases List.mem_or_eq_of_mem_set held with old | rfl
      · exact Or.inl old
      · exact Or.inr (.appendCall (List.mem_of_getElem? found) built slots
          List.mem_cons_self)
  | leaderCopied found =>
      rcases List.mem_or_eq_of_mem_set held with old | rfl
      · exact Or.inl old
      · exact Or.inr (.copiedCall (List.mem_of_getElem? found))
  | appendBegun handled =>
      rcases List.mem_append.mp held with old | new
      · exact Or.inl old
      · cases List.mem_singleton.mp new
        cases handled with
        | followed _ _ confirms =>
            rcases confirms with impossible | impossible <;> cases impossible
        | completed _ _ _ confirms =>
            rcases confirms with impossible | impossible <;> cases impossible
        | copying accepts brings _ =>
            exact Or.inr (.appendHandler accepts brings rfl)
  | commandsAppended leader =>
      rcases List.mem_append.mp held with old | new
      · exact Or.inl old
      · cases List.mem_singleton.mp new
        exact Or.inr (.applier leader)
  | commandsSpawned found =>
      rcases List.mem_append.mp held with old | new
      · exact erased old
      · obtain ⟨fi, peer, rfl⟩ := List.mem_map.mp new
        exact Or.inr (.commandWorker peer (List.mem_of_getElem? found))
  | voteCounted _ => exact erased held
  | voteDropped _ => exact erased held
  | appendHeld _ => exact erased held
  | leaderCopyFailed _ => exact erased held
  | appendAnswered _ _ => exact erased held
  | appendDropped _ => exact erased held
  | appendFinished _ _ => exact erased held
  | restarted => cases held
  | restartThrew => cases held
  | _ => exact Or.inl held

/-- A message that a step sends. -/
inductive Node.Sends
    (mapped : Nat → Prop)
    (node after : Node) :
    Act → Nat → Payload → Prop where
  | voteRequest
      {index peerIndex : Nat} :
      node.threads[index]? = some (.voteWorker peerIndex) →
      Sends mapped node after (.voteSend index) peerIndex
        (.voteRequest node.view.voteRequest)
  | appendRequest
      {index fi : Nat}
      {call : AppendCall} :
      node.threads[index]? = some (.appendWorker fi) →
      (node.view.clampNext fi).Built fi call →
      (0 < call.lenEntries → mapped call.next) →
      Sends mapped node after (.appendSend index) fi
        (.appendRequest call.req)
  | copiedRequest
      {index fi : Nat}
      {call : AppendCall} :
      node.threads[index]? = some (.leaderCopy fi call) →
      Sends mapped node after (.leaderCopied index true) fi
        (.appendRequest call.copied.req)
  | voteResponse
      {src : Nat}
      {req : RequestVoteRequest} :
      after.view = node.view.voted req →
      Sends mapped node after (.handleVote src req) src
        (.voteResponse req (node.view.voteResponse req))
  | appendResponse
      {src : Nat}
      {req : AppendEntriesRequest}
      {rsp : AppendEntriesResponse} :
      node.view.Handled req (some (.replied rsp)) after.view →
      Sends mapped node after (.handleAppend src req) src
        (.appendResponse req rsp)
  | finishedResponse
      {index src : Nat}
      {pending : PendingAppend}
      {copied : Bool} :
      node.threads[index]? = some (.appendHandler src pending) →
      after.view =
        (if copied then node.view.complete pending else node.view) →
      Sends mapped node after (.handleAppendFinish index copied) src
        (.appendResponse pending.req
          { term := pending.rspTerm, success := copied })

/-- Every message of a step is one of these. -/
theorem Node.Step.sends
    {mapped : Nat → Prop}
    {node after : Node}
    {act : Act}
    {outputs : Outputs}
    {output : Nat × Payload}
    (step : node.Step mapped act after outputs)
    (sent : output ∈ outputs) :
    node.Sends mapped after act output.1 output.2 := by
  cases step with
  | voteSent found =>
      cases List.mem_singleton.mp sent
      exact .voteRequest found
  | appendSent found built slots =>
      cases List.mem_singleton.mp sent
      exact .appendRequest found built slots
  | leaderCopied found =>
      cases List.mem_singleton.mp sent
      exact .copiedRequest found
  | voteHandled =>
      cases List.mem_singleton.mp sent
      exact .voteResponse rfl
  | appendReplied handled =>
      cases List.mem_singleton.mp sent
      exact .appendResponse handled
  | appendFinished found viewed =>
      cases List.mem_singleton.mp sent
      exact .finishedResponse found viewed
  | _ =>
      cases sent

end NvmeofRaft
