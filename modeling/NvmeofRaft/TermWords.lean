import NvmeofRaft.BallotEffect

namespace NvmeofRaft

/-!
# Terms as machine words

`current_term` is a `uint64_t`.  It takes the term of any message that has a
higher one, and `timeout` increments it, so a timeout that fires in the
largest term moves the node back to term 0.  The process of this module counts
its terms in such words and gets messages with such terms.  Until a timeout
fires in the largest term, its steps are those of `Process.step`.
-/

/-- The candidacy of `timeout`, with `current_term++` on a `uint64_t`. -/
def Server.startElectionWord (server : Server) : Server :=
  server.startElection.mapRaft fun raft =>
    { raft with currentTerm := raft.currentTerm % 2 ^ 64 }

/-- `timeout` on a `uint64_t` term. -/
def timeoutWord (expired : Bool) : Section Bool := do
  if expired then
    modify Server.startElectionWord
    persistCircular false 0
    return true
  else
    return false

namespace Process

/-- One section of `main_loop`; `timeout` is the only one that increments. -/
def stepMainWord
    (proc : Process)
    (outcomes : IoOutcomes)
    (expired : Bool)
    (load : Nat → Option (List UInt8)) :
    Process × Outputs :=
  match proc.main with
  | .timeout state =>
      proc.execOrHalt outcomes (timeoutWord expired) fun proc fired =>
        (proc.goto
          (if fired then .requestVote state else .afterTimeout state), [])
  | _ =>
      proc.stepMain outcomes expired load

/-- One step of a node that counts its terms in words. -/
def stepWord
    (proc : Process)
    (outcomes : IoOutcomes)
    (act : Act) :
    Option (Process × Outputs) :=
  match act with
  | .main expired load =>
      if proc.halted then
        none
      else
        some (proc.stepMainWord outcomes expired load)
  | act =>
      proc.step outcomes act

end Process

/-- The term of the message that an act delivers is a `uint64_t`. -/
def Act.termFits : Act → Bool
  | .voteReply _ rsp => decide (rsp.term < 2 ^ 64)
  | .appendReply _ rsp => decide (rsp.term < 2 ^ 64)
  | .handleVote _ req => decide (req.term < 2 ^ 64)
  | .handleAppend _ req => decide (req.term < 2 ^ 64)
  | _ => true

/-- The input of one step, with the terms that messages can have. -/
structure WordInput extends Input where
  termFits : act.termFits = true := by decide

/-- One step of a node on word terms, without its messages. -/
def Process.advanceWord
    (proc : Process)
    (input : WordInput) :
    Option Process :=
  (proc.stepWord input.outcomes input.act).map Prod.fst

/-- The act is a timeout that fires in the largest term. -/
def Process.wrapsTerm
    (proc : Process)
    (act : Act) :
    Bool :=
  proc.node.fires act && decide (proc.server.raft.currentTerm = 2 ^ 64 - 1)

/-- The term of the process is a `uint64_t`. -/
def Process.TermFits (proc : Process) : Prop :=
  proc.server.raft.currentTerm < 2 ^ 64

/-- Below the largest term the candidacy is the one of `Server.startElection`. -/
theorem startElectionWord_eq
    {server : Server}
    (below : server.raft.currentTerm + 1 < 2 ^ 64) :
    server.startElectionWord = server.startElection := by
  have small :
      (server.raft.currentTerm + 1) % 2 ^ 64 = server.raft.currentTerm + 1 :=
    Nat.mod_eq_of_lt below
  simp only [Server.startElectionWord, Server.startElection, Server.mapRaft,
    small]

/-- A timeout that does not wrap runs as the one of `timeout`. -/
theorem timeoutWord_run
    {expired : Bool}
    {server : Server}
    (below : expired = true → server.raft.currentTerm + 1 < 2 ^ 64) :
    (timeoutWord expired).run server = (timeout expired).run server := by
  cases expired with
  | false =>
      rfl
  | true =>
      simp only [timeoutWord, timeout, if_true, EStateM.run_bind]
      show EStateM.run (persistCircular false 0 >>= _)
          server.startElectionWord =
        EStateM.run (persistCircular false 0 >>= _) server.startElection
      rw [startElectionWord_eq (below rfl)]

/-- A step that does not wrap the term is a step of `Process.step`. -/
theorem Process.stepWord_eq
    {proc : Process}
    {outcomes : IoOutcomes}
    {act : Act}
    (fits : proc.TermFits)
    (unwrapped : proc.wrapsTerm act = false) :
    proc.stepWord outcomes act = proc.step outcomes act := by
  cases act with
  | main expired load =>
      cases pc : proc.main with
      | timeout state =>
          have below :
              expired = true → proc.server.raft.currentTerm + 1 < 2 ^ 64 := by
            intro fired
            have notLargest :
                proc.server.raft.currentTerm ≠ 2 ^ 64 - 1 := by
              simpa [Process.wrapsTerm, Node.fires, Process.node, pc, fired]
                using unwrapped
            unfold Process.TermFits at fits
            omega
          have same :
              (timeoutWord expired).run (proc.server.withOutcomes outcomes) =
                (NvmeofRaft.timeout expired).run
                  (proc.server.withOutcomes outcomes) :=
            timeoutWord_run below
          simp only [Process.stepWord, Process.step, Process.stepMainWord,
            Process.stepMain, pc, Process.execOrHalt, Process.exec, same]
      | _ =>
          simp only [Process.stepWord, Process.step, Process.stepMainWord, pc]
  | _ =>
      rfl

/-- A step that does not wrap keeps the term a word. -/
theorem Node.Step.term_fits
    {mapped : Nat → Prop}
    {proc : Process}
    {node : Node}
    {act : Act}
    {outputs : Outputs}
    (step : proc.node.Step mapped act node outputs)
    (noRestart : ∀ kernel cacheLost, act ≠ .restart kernel cacheLost)
    (delivered : act.termFits = true)
    (unwrapped : proc.wrapsTerm act = false)
    (fits : proc.TermFits) :
    node.view.term < 2 ^ 64 := by
  have effect := step.ballotEffect
  generalize same : node.view.ballot = ballot at effect
  have term : node.view.term = ballot.term := congrArg Ballot.term same
  rw [term]
  cases effect with
  | kept =>
      exact fits
  | demoted higher carries =>
      rcases carries with
          ⟨_, _, rfl, rfl⟩ | ⟨_, _, rfl, rfl⟩ | ⟨_, _, rfl, rfl⟩ <;>
        exact of_decide_eq_true delivered
  | steppedDown _ _ =>
      exact fits
  | elected pc =>
      have notLargest : proc.server.raft.currentTerm ≠ 2 ^ 64 - 1 := by
        simpa [Process.wrapsTerm, Node.fires, pc] using unwrapped
      have below : proc.server.raft.currentTerm < 2 ^ 64 := fits
      show proc.server.raft.currentTerm + 1 < 2 ^ 64
      omega
  | recorded _ _ _ _ =>
      exact fits
  | @granted src req _ =>
      have largest := View.bump_term proc.node.view req.term
      have below : req.term < 2 ^ 64 := of_decide_eq_true delivered
      show (proc.node.view.bump req.term).term < 2 ^ 64
      rw [largest]
      exact max_lt fits below
  | won _ _ =>
      exact fits
  | restarted _ =>
      exact absurd rfl (noRestart _ _)

/-- What an unwrapped step does on words, and that its term is one. -/
theorem Process.stepWord_does
    {proc : Process}
    {input : WordInput}
    {result : Process × Outputs}
    (wellformed : proc.Wellformed)
    (fits : proc.TermFits)
    (noRestart : ∀ kernel cacheLost, input.act ≠ .restart kernel cacheLost)
    (unwrapped : proc.wrapsTerm input.act = false)
    (stepped : proc.stepWord input.outcomes input.act = some result) :
    proc.step input.outcomes input.act = some result ∧
      result.1.TermFits := by
  rw [Process.stepWord_eq fits unwrapped] at stepped
  have does := Process.step_does wellformed stepped
  exact ⟨stepped,
    Node.Step.term_fits does noRestart input.termFits unwrapped fits⟩

/-- A fresh node is in term 0. -/
theorem boot_termFits
    {n : Nat}
    (members : Membership n)
    (settings : Fin n → Settings)
    (node : Fin n) :
    (members.boot settings node).TermFits := by
  obtain ⟨halted, fresh⟩ := boot_node members settings node
  have viewed : (members.boot settings node).server.view =
      (members.freshNode node halted).view :=
    congrArg Node.view fresh
  have zero : (members.freshNode node halted).view.term = 0 := by
    cases halted <;> rfl
  have term : (members.boot settings node).server.raft.currentTerm = 0 :=
    (congrArg View.term viewed).trans zero
  unfold Process.TermFits
  omega

end NvmeofRaft
