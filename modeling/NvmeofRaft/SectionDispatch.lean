import NvmeofRaft.Configuration

namespace NvmeofRaft

/-!
# Which section an act runs

The server after a step is the state in which the section of the act ended.
An exception halts the process, unless it left the vote handler, whose caller
turns it into an error reply.
-/

/-- The section of `main_loop` at its program counter. -/
def MainPc.body
    (main : MainPc)
    (expired : Bool)
    (load : Nat → Option (List UInt8)) :
    Section Unit :=
  match main with
  | .advanceCommit => advanceCommitIndex
  | .timeout _ => discard (NvmeofRaft.timeout expired)
  | .becomeLeader => NvmeofRaft.becomeLeader load
  | _ => pure ()

/-- The section that continues a thread. -/
def Thread.body
    (thread : Thread)
    (act : Act) :
    Section Unit :=
  match act, thread with
  | .voteSend _, .voteWorker _ => discard requestVoteSend
  | .voteReply _ rsp, .voteCall peerIndex req =>
      requestVoteReply peerIndex req rsp
  | .appendSend _, .appendWorker fi => discard (appendEntriesSend fi)
  | .leaderCopied _ false, .leaderCopy fi call =>
      appendEntriesReply fi call none
  | .appendReply _ rsp, .appendCall fi call =>
      appendEntriesReply fi call (some rsp)
  | .appendDrop _, .appendCall fi call => appendEntriesReply fi call none
  | .handleAppendFinish _ copied, .appendHandler _ pending =>
      discard (handleAppendEntriesFinish pending copied)
  | _, _ => pure ()

/-- The section an act runs on a process that is not restarted. -/
def Process.body
    (proc : Process)
    (act : Act) :
    Section Unit :=
  match act with
  | .main expired load => proc.main.body expired load
  | .handleVote _ req => discard (handleRequestVoteRequest req)
  | .handleAppend _ req => discard (handleAppendEntriesRequest req)
  | .apply sink commands => discard (applyCommands sink commands)
  | .applyPending => NvmeofRaft.applyPending
  | .slotGc => doSlotGc
  | act =>
      match act.thread?.bind fun index => proc.threads[index]? with
      | some thread => thread.body act
      | none => pure ()

/-- The act runs neither `become_leader` nor `apply` nor `do_slot_gc`. -/
def Process.Quiet
    (proc : Process) :
    Act → Prop
  | .main _ _ => proc.main ≠ .becomeLeader
  | .apply _ _ => False
  | .slotGc => False
  | _ => True

/-- The act continues a worker of `append_entries_worker`. -/
def Act.isWorker : Act → Bool
  | .appendSend _ => true
  | .leaderCopied _ _ => true
  | .appendReply _ _ => true
  | .appendDrop _ => true
  | _ => false

/-- A quiet body outside the append workers leaves an undisturbed view. -/
theorem body_undisturbed
    {γ : Type}
    {view : Server → γ}
    {proc : Process}
    {act : Act}
    (undisturbed : Undisturbed view)
    (quiet : proc.Quiet act)
    (other : act.isWorker = false) :
    Frames view (proc.body act) := by
  unfold Process.body
  split
  · unfold MainPc.body
    split
    · exact advanceCommitIndex_frames undisturbed
    · exact (timeout_frames undisturbed _).discard
    · rename_i pc
      exact absurd pc quiet
    · exact Frames.pure _
  · exact (handleRequestVoteRequest_frames undisturbed _).discard
  · exact (handleAppendEntriesRequest_frames undisturbed _).discard
  · exact quiet.elim
  · exact applyPending_frames undisturbed
  · exact quiet.elim
  · split
    · unfold Thread.body
      split
      · exact (Frames.bind Frames.get fun _ => Frames.pure _).discard
      · exact requestVoteReply_frames undisturbed _ _ _
      · cases other
      · cases other
      · cases other
      · cases other
      · exact (handleAppendEntriesFinish_frames undisturbed _ _).discard
      · exact Frames.pure _
    · exact Frames.pure _

/-- What the append workers leave, their threads leave. -/
theorem workerBody_frames
    {γ : Type}
    {view : Server → γ}
    {act : Act}
    (unaffected : Unaffected view)
    (worker : act.isWorker = true)
    (thread : Thread) :
    Frames view (thread.body act) := by
  unfold Thread.body
  split
  · cases worker
  · cases worker
  · exact (appendEntriesSend_frames unaffected _).discard
  · exact appendEntriesReply_frames unaffected _ _ _
  · exact appendEntriesReply_frames unaffected _ _ _
  · exact appendEntriesReply_frames unaffected _ _ _
  · cases worker
  · exact Frames.pure _

/-- A quiet body leaves what the quiet sections leave. -/
theorem body_frames
    {γ : Type}
    {view : Server → γ}
    {proc : Process}
    {act : Act}
    (unaffected : Unaffected view)
    (quiet : proc.Quiet act) :
    Frames view (proc.body act) := by
  cases worker : act.isWorker with
  | false =>
      exact body_undisturbed unaffected.toUndisturbed quiet worker
  | true =>
      unfold Process.body
      split
      · cases worker
      · cases worker
      · cases worker
      · cases worker
      · cases worker
      · cases worker
      · split
        · exact workerBody_frames unaffected worker _
        · exact Frames.pure _

/-- The three sections that are not quiet. -/
theorem body_loud
    {proc : Process}
    {act : Act}
    (loud : ¬ proc.Quiet act) :
    (∃ load, proc.body act = NvmeofRaft.becomeLeader load) ∨
      (∃ sink commands,
        proc.body act = discard (applyCommands sink commands)) ∨
      proc.body act = doSlotGc := by
  cases act with
  | main expired load =>
      have pc : proc.main = .becomeLeader := not_not.mp loud
      refine Or.inl ⟨load, ?_⟩
      simp only [Process.body, MainPc.body, pc]
  | apply sink commands =>
      exact Or.inr (Or.inl ⟨sink, commands, rfl⟩)
  | slotGc =>
      exact Or.inr (Or.inr rfl)
  | _ =>
      exact absurd trivial loud

/-- What a section guarantees holds of the process that goes on after it. -/
theorem exec_wp
    {α : Type}
    {proc : Process}
    {outcomes : IoOutcomes}
    {body : Section α}
    {after : Process → Option α → Process × Outputs}
    {returns : α → Server → Prop}
    {throws : Exn → Server → Prop}
    (goal : Process × Outputs → Prop)
    (spec : wp body returns throws (proc.server.withOutcomes outcomes))
    (onReturn :
      ∀ value server,
        returns value server → goal (after { proc with server } (some value)))
    (onThrow :
      ∀ exn server,
        throws exn server → goal (after { proc with server } none)) :
    goal (proc.exec outcomes body after) := by
  unfold wp at spec
  unfold Process.exec
  cases ended : body.run (proc.server.withOutcomes outcomes) with
  | ok value final =>
      rw [ended] at spec
      exact onReturn value final spec
  | error exn final =>
      rw [ended] at spec
      exact onThrow exn final spec

/-- The rule for sections whose exceptions halt the process. -/
theorem execOrHalt_wp
    {α : Type}
    {proc : Process}
    {outcomes : IoOutcomes}
    {body : Section α}
    {after : Process → α → Process × Outputs}
    {returns : α → Server → Prop}
    {throws : Exn → Server → Prop}
    (goal : Process × Outputs → Prop)
    (spec : wp body returns throws (proc.server.withOutcomes outcomes))
    (onReturn :
      ∀ value server,
        returns value server → goal (after { proc with server } value))
    (onThrow :
      ∀ exn server,
        throws exn server → goal ({ proc with server }.halt, [])) :
    goal (proc.execOrHalt outcomes body after) :=
  exec_wp goal spec onReturn onThrow

/--
What the body of an act guarantees of the server after the step.  A body that
threw has halted the process, unless it was the vote handler.
-/
def Process.Ends
    (proc : Process)
    (act : Act)
    (returns throws : Server → Prop)
    (after : Process) : Prop :=
  after.server = proc.server ∨ returns after.server ∨
    throws after.server ∧
      (after.halted = true ∨ ∃ src req, act = .handleVote src req)

/-- The postconditions of the body of an act. -/
def Process.BodySpec
    (proc : Process)
    (outcomes : IoOutcomes)
    (act : Act)
    (returns throws : Server → Prop) : Prop :=
  wp (proc.body act) (fun _ final => returns final)
    (fun _ final => throws final) (proc.server.withOutcomes outcomes)

section

variable {proc : Process} {outcomes : IoOutcomes} {act : Act}
variable {returns throws : Server → Prop}

/-- An act whose exceptions halt the process ends as its body says. -/
theorem execOrHalt_ends
    {α : Type}
    {start : Process}
    {body : Section α}
    {after : Process → α → Process × Outputs}
    (spec :
      wp body (fun _ final => returns final) (fun _ final => throws final)
        (start.server.withOutcomes outcomes))
    (keeps : ∀ proc value, (after proc value).1.server = proc.server) :
    proc.Ends act returns throws
      (start.execOrHalt outcomes body after).1 := by
  refine execOrHalt_wp
    (fun result => proc.Ends act returns throws result.1) spec ?_ ?_
  · intro value server ends
    refine Or.inr (Or.inl ?_)
    rw [keeps]
    exact ends
  · intro _ server ends
    exact Or.inr (Or.inr ⟨ends, Or.inl rfl⟩)

theorem stepMain_ends
    {expired : Bool}
    {load : Nat → Option (List UInt8)}
    (spec : proc.BodySpec outcomes (.main expired load) returns throws) :
    proc.Ends (.main expired load) returns throws
      (proc.stepMain outcomes expired load).1 := by
  unfold Process.BodySpec Process.body MainPc.body at spec
  unfold Process.stepMain
  cases pc : proc.main with
  | top =>
      refine Or.inl ?_
      dsimp only
      split <;> rfl
  | heartbeat =>
      exact Or.inl rfl
  | appendEntries =>
      exact Or.inl rfl
  | advanceCommit =>
      rw [pc] at spec
      exact execOrHalt_ends spec fun _ _ => rfl
  | timeout state =>
      rw [pc] at spec
      exact execOrHalt_ends (wp_discard _ |>.mp spec) fun _ _ => rfl
  | requestVote state =>
      exact Or.inl rfl
  | becomeLeader =>
      rw [pc] at spec
      refine execOrHalt_ends ?_ fun _ _ => rfl
      split <;> exact spec

theorem noteAccepted_server
    (before : Server)
    (req : AppendEntriesRequest)
    (success : Bool) :
    (proc.noteAccepted before req success).server = proc.server := by
  unfold Process.noteAccepted
  dsimp only
  split <;> rfl

theorem stepThread_ends
    {thread : Thread}
    {result : Process × Outputs}
    (spec :
      wp (thread.body act) (fun _ final => returns final)
        (fun _ final => throws final) (proc.server.withOutcomes outcomes))
    (stepped :
      proc.stepThread outcomes act (some thread) = some result) :
    proc.Ends act returns throws result.1 := by
  unfold Process.stepThread at stepped
  split at stepped <;> rename_i found <;> cases stepped <;> cases found
  · exact execOrHalt_ends ((wp_discard _).mp spec) fun _ _ => rfl
  · exact execOrHalt_ends spec fun _ _ => rfl
  · exact Or.inl rfl
  · refine execOrHalt_ends ((wp_discard _).mp spec) fun proc built => ?_
    cases built with
    | none =>
        rfl
    | some call =>
        dsimp only
        split <;> rfl
  · rename_i copied fi call
    unfold Process.stepLeaderCopied
    cases copied with
    | true =>
        exact Or.inl rfl
    | false =>
        simp only [Bool.false_eq_true, if_false, Process.stepAppendReply]
        exact execOrHalt_ends spec fun _ _ => rfl
  · exact execOrHalt_ends spec fun _ _ => rfl
  · exact execOrHalt_ends spec fun _ _ => rfl
  · refine exec_wp
      (fun result => proc.Ends _ returns throws result.1)
      ((wp_discard _).mp spec) ?_ ?_
    · intro rsp server ends
      refine Or.inr (Or.inl ?_)
      dsimp only
      rw [Process.replyAppend, noteAccepted_server]
      exact ends
    · intro _ server ends
      refine Or.inr (Or.inr ⟨?_, Or.inl rfl⟩)
      rw [Process.halt, noteAccepted_server]
      exact ends
  · exact Or.inl rfl

/-- Every step but a restart ends as the body of its act says. -/
theorem Process.step_ends
    {result : Process × Outputs}
    (spec : proc.BodySpec outcomes act returns throws)
    (stepped : proc.step outcomes act = some result)
    (noRestart : ∀ kernel cacheLost, act ≠ .restart kernel cacheLost) :
    proc.Ends act returns throws result.1 := by
  unfold Process.step at stepped
  split at stepped
  · exact absurd rfl (noRestart _ _)
  · split at stepped
    · cases stepped
    · split at stepped
      · cases stepped
        exact stepMain_ends spec
      · cases stepped
        refine exec_wp
          (fun result => proc.Ends _ returns throws result.1)
          ((wp_discard _).mp spec) ?_ ?_
        · intro rsp server ends
          refine Or.inr (Or.inl ?_)
          dsimp only
          split <;> exact ends
        · intro _ server ends
          exact Or.inr (Or.inr ⟨ends, Or.inr ⟨_, _, rfl⟩⟩)
      · cases stepped
        refine exec_wp
          (fun result => proc.Ends _ returns throws result.1)
          ((wp_discard _).mp spec) ?_ ?_
        · intro progress server ends
          refine Or.inr (Or.inl ?_)
          cases progress with
          | replied rsp =>
              dsimp only
              rw [Process.replyAppend, noteAccepted_server]
              exact ends
          | copying pending =>
              exact ends
        · intro _ server ends
          refine Or.inr (Or.inr ⟨?_, Or.inl rfl⟩)
          rw [Process.halt, noteAccepted_server]
          exact ends
      · cases stepped
        refine execOrHalt_ends ((wp_discard _).mp spec)
          fun proc outcome => ?_
        dsimp only
        split <;> rfl
      · cases stepped
        exact execOrHalt_ends spec fun _ _ => rfl
      · cases stepped
        exact execOrHalt_ends spec fun _ _ => rfl
      · unfold Process.BodySpec Process.body at spec
        cases found : act.thread?.bind fun index => proc.threads[index]? with
        | none =>
            rw [found] at stepped
            cases act <;> cases stepped
        | some thread =>
            rw [found] at stepped
            refine stepThread_ends ?_ stepped
            split at spec
            · cases found
            · cases found
            · cases found
            · cases found
            · cases found
            · cases found
            · rw [found] at spec
              exact spec

/-- A view that the body of an act frames is the same after its step. -/
theorem Process.step_keeps
    {γ : Type}
    {view : Server → γ}
    {result : Process × Outputs}
    (frames : Frames view (proc.body act))
    (noInput :
      ∀ server outcomes, view (Server.withOutcomes server outcomes) =
        view server)
    (stepped : proc.step outcomes act = some result)
    (noRestart : ∀ kernel cacheLost, act ≠ .restart kernel cacheLost) :
    view result.1.server = view proc.server := by
  have spec := frames.ends (proc.server.withOutcomes outcomes)
  rw [noInput] at spec
  rcases Process.step_ends spec stepped noRestart with
    unchanged | returned | ⟨threw, -⟩
  · rw [unchanged]
  · exact returned
  · exact threw

end

end NvmeofRaft
