import NvmeofRaft.Ballots
import NvmeofRaft.TermWords

namespace NvmeofRaft

/-!
# One vote per term

The votes a process gives, by answering a request or by standing for election
itself, in a ledger beside its state.  A vote given in the current term is
still held in memory, so a second one in that term is for the same candidate.
Votes of earlier terms are never met again, unless the term wraps.
-/

/-- The term and the candidate of an answer that grants a vote. -/
def Payload.grant? : Payload → Option (Nat × Nat)
  | .voteResponse req rsp =>
      if rsp.voteGranted then some (rsp.term, req.candidateId) else none
  | _ => none

/-- A process with the terms and candidates of the votes it has given. -/
structure VoteLedger where
  proc : Process
  casts : List (Nat × Nat) := []

/--
The votes of one step: the own vote of a timeout that fires, for the term it
moves to, and the votes that answers grant.
-/
def Process.castVotes
    (proc : Process)
    (act : Act)
    (result : Process × Outputs) :
    List (Nat × Nat) :=
  (if proc.node.fires act then
      [(result.1.server.raft.currentTerm, proc.server.raft.id)]
    else
      []) ++
    result.2.filterMap fun output => output.2.grant?

/-- One step of the process, with its votes entered. -/
def VoteLedger.advance
    (ledger : VoteLedger)
    (input : WordInput) :
    Option VoteLedger :=
  (ledger.proc.stepWord input.outcomes input.act).map fun result =>
    { proc := result.1
      casts := ledger.proc.castVotes input.act result ++ ledger.casts }

/-- The process is not started again, and candidates have non-zero ids. -/
def candidatesNamed
    (_ledger : VoteLedger)
    (input : WordInput) :
    Bool :=
  match input.act with
  | .restart _ _ => false
  | .handleVote _ req => decide (req.candidateId ≠ 0)
  | _ => true

/-- Candidates are named, and no timeout fires in the largest term. -/
def votesKept
    (ledger : VoteLedger)
    (input : WordInput) :
    Bool :=
  candidatesNamed ledger input && !ledger.proc.wrapsTerm input.act

section

variable {mapped : Nat → Prop} {node after : Node} {act : Act}
variable {outputs : Outputs}

/-- A timeout that fires votes for the node itself in its new term. -/
theorem Node.Step.fired_vote
    (step : node.Step mapped act after outputs)
    (listed : node.view.index < node.view.votes.length)
    (fires : node.fires act = true) :
    after.view.vote = node.view.id := by
  cases act with
  | main expired load =>
      cases pc : node.main with
      | timeout state =>
          simp only [Node.fires, pc] at fires
          subst fires
          cases step with
          | timeoutFired _ => exact View.elect_vote listed
          | timeoutThrew _ => exact View.elect_vote listed
          | readLeader other _ => cases pc.symm.trans other
          | readOther other _ => cases pc.symm.trans other
          | heartbeat other => cases pc.symm.trans other
          | spawnAppends other => cases pc.symm.trans other
          | commitKept other => cases pc.symm.trans other
          | commitRaised other _ => cases pc.symm.trans other
          | spawnVotes other => cases pc.symm.trans other
          | electionOpen other _ => cases pc.symm.trans other
          | electionWon other _ _ => cases pc.symm.trans other
          | electionThrew other _ _ => cases pc.symm.trans other
      | _ =>
          simp [Node.fires, pc] at fires
  | _ =>
      cases fires

/-- A granted vote is held in the term of its answer. -/
theorem Node.Step.granted_vote
    (step : node.Step mapped act after outputs)
    (listed : node.view.index < node.view.votes.length)
    {term candidateId : Nat}
    (granted :
      (term, candidateId) ∈ outputs.filterMap fun output => output.2.grant?) :
    term = after.view.term ∧ candidateId = after.view.vote ∧
      ∃ src req, act = .handleVote src req ∧ req.candidateId = candidateId := by
  obtain ⟨⟨dst, payload⟩, sent, grants⟩ := List.mem_filterMap.mp granted
  have origin := step.sends sent
  dsimp only at origin grants
  cases origin with
  | @voteResponse src req viewed =>
      simp only [Payload.grant?] at grants
      split at grants
      · rename_i given
        simp only [Option.some.injEq, Prod.mk.injEq] at grants
        obtain ⟨rfl, rfl⟩ := grants
        have held :
            after.view =
              (node.view.bump req.term).withVote req.candidateId :=
          viewed.trans (if_pos given)
        have bumped := View.bump_shape node.view req.term
        rw [held]
        refine ⟨rfl, (View.withVote_vote ?_).symm, _, req, rfl, rfl⟩
        rwa [bumped.1, bumped.2]
      · cases grants
  | _ =>
      cases grants

end

/-- What the ledger has in common with the state of the process. -/
structure VoteLedger.Sound (ledger : VoteLedger) : Prop where
  wellformed : ledger.proc.Wellformed
  termFits : ledger.proc.TermFits
  named : ledger.proc.node.view.id ≠ 0
  listed :
    ledger.proc.node.view.index < ledger.proc.node.view.votes.length
  peers : ledger.proc.node.CallsPeers
  past :
    ∀ term candidateId,
      (term, candidateId) ∈ ledger.casts → term ≤ ledger.proc.node.view.term
  current :
    ∀ term candidateId,
      (term, candidateId) ∈ ledger.casts →
      term = ledger.proc.node.view.term →
      candidateId ≠ 0 ∧ ledger.proc.node.view.vote = candidateId
  unique :
    ∀ term first second,
      (term, first) ∈ ledger.casts →
      (term, second) ∈ ledger.casts →
      first = second

/-- A vote given by a step is the one held after it. -/
theorem Process.castVotes_held
    {proc : Process}
    {act : Act}
    {result : Process × Outputs}
    (does : proc.Does act result)
    (named : proc.node.view.id ≠ 0)
    (listed : proc.node.view.index < proc.node.view.votes.length)
    (candidates : ∀ src req, act = .handleVote src req → req.candidateId ≠ 0)
    {term candidateId : Nat}
    (given : (term, candidateId) ∈ proc.castVotes act result) :
    term = result.1.node.view.term ∧
      candidateId = result.1.node.view.vote ∧ candidateId ≠ 0 := by
  rcases List.mem_append.mp given with own | granted
  · split at own
    · rename_i fires
      obtain ⟨rfl, rfl⟩ := Prod.mk.inj (List.mem_singleton.mp own)
      exact ⟨rfl, (Node.Step.fired_vote does listed fires).symm, named⟩
    · cases own
  · obtain ⟨sameTerm, sameVote, src, req, handles, rfl⟩ :=
      Node.Step.granted_vote does listed granted
    exact ⟨sameTerm, sameVote, candidates src req handles⟩

/-- A step keeps the ledger sound and does not lower the term. -/
theorem VoteLedger.Sound.advance
    {ledger next : VoteLedger}
    {input : WordInput}
    (sound : ledger.Sound)
    (allowed : votesKept ledger input = true)
    (advanced : ledger.advance input = some next) :
    next.Sound ∧
      ledger.proc.node.view.term ≤ next.proc.node.view.term := by
  obtain ⟨result, wordStepped, rfl⟩ := Option.map_eq_some_iff.mp advanced
  obtain ⟨named, unwrapped⟩ := Bool.and_eq_true_iff.mp allowed
  have noRestart :
      ∀ kernel cacheLost, input.act ≠ .restart kernel cacheLost := by
    intro kernel cacheLost act
    simp [candidatesNamed, act] at named
  have candidates :
      ∀ src req, input.act = .handleVote src req → req.candidateId ≠ 0 := by
    intro src req act
    simpa [candidatesNamed, act] using named
  obtain ⟨stepped, fits⟩ := Process.stepWord_does sound.wellformed
    sound.termFits noRestart (by simpa using unwrapped) wordStepped
  have does := Process.step_does sound.wellformed stepped
  have higher := Node.Step.term_le does noRestart
  have same := Process.step_configuration stepped
  have sameIndex :
      result.1.node.view.index = ledger.proc.node.view.index :=
    congrArg Configuration.clusterIndex same
  have sameLength :
      result.1.node.view.votes.length = ledger.proc.node.view.votes.length := by
    have length := congrArg (fun config => config.memberIds.length) same
    simpa [Server.configuration, Process.node, Server.view] using length
  have held :
      ∀ term candidateId,
        (term, candidateId) ∈ ledger.proc.castVotes input.act result →
        term = result.1.node.view.term ∧
          candidateId = result.1.node.view.vote ∧ candidateId ≠ 0 :=
    fun _ _ => Process.castVotes_held does sound.named sound.listed candidates
  have past :
      ∀ term candidateId,
        (term, candidateId) ∈
            ledger.proc.castVotes input.act result ++ ledger.casts →
        term ≤ result.1.node.view.term := by
    intro term candidateId given
    rcases List.mem_append.mp given with new | old
    · exact le_of_eq (held term candidateId new).1
    · exact (sound.past term candidateId old).trans higher
  have current :
      ∀ term candidateId,
        (term, candidateId) ∈
            ledger.proc.castVotes input.act result ++ ledger.casts →
        term = result.1.node.view.term →
        candidateId ≠ 0 ∧ result.1.node.view.vote = candidateId := by
    intro term candidateId given now
    rcases List.mem_append.mp given with new | old
    · obtain ⟨-, vote, nonzero⟩ := held term candidateId new
      exact ⟨nonzero, vote.symm⟩
    · have before := sound.past term candidateId old
      rcases Node.Step.vote_kept does noRestart sound.listed sameIndex
        sound.peers with later | ⟨sameTerm, vote⟩
      · omega
      · obtain ⟨nonzero, given⟩ :=
          sound.current term candidateId old (now.trans sameTerm)
        rcases vote with free | kept
        · exact absurd (given.symm.trans free) nonzero
        · exact ⟨nonzero, kept.trans given⟩
  refine ⟨⟨?_, fits, ?_, ?_, ?_, past, current, ?_⟩, higher⟩
  · exact Process.step_wellformed sound.wellformed stepped
  · exact (congrArg Configuration.id same).trans_ne sound.named
  · dsimp only
    rw [sameIndex, sameLength]
    exact sound.listed
  · intro thread present
    rw [sameIndex]
    exact concernsPeer_step does sound.peers thread present
  · intro term first second firstGiven secondGiven
    -- A vote of this step meets the others in the vote that is now held.
    have now :
        term = result.1.node.view.term → first = second := fun now =>
      (current term first firstGiven now).2.symm.trans
        (current term second secondGiven now).2
    rcases List.mem_append.mp firstGiven with firstNew | firstOld
    · exact now (held term first firstNew).1
    · rcases List.mem_append.mp secondGiven with secondNew | secondOld
      · exact now (held term second secondNew).1
      · exact sound.unique term first second firstOld secondOld

theorem boot_voteLedger
    {n : Nat}
    (members : Membership n)
    (settings : Fin n → Settings)
    (node : Fin n) :
    VoteLedger.Sound { proc := members.boot settings node } := by
  obtain ⟨id, index, votes, -⟩ := (start_sane members settings).view node
  obtain ⟨halted, fresh⟩ := boot_node members settings node
  refine ⟨boot_wellformed members settings node,
    boot_termFits members settings node, ?_, ?_, ?_, ?_, ?_, ?_⟩
  · exact id.trans_ne (members.nonzero node)
  · exact index.trans_lt (node.isLt.trans_eq votes.symm)
  · intro thread held
    dsimp only at held
    rw [fresh] at held
    cases held
  · intro term candidateId given
    cases given
  · intro term candidateId given
    cases given
  · intro term first second given
    cases given

/-- A run within the condition keeps the ledger sound and the term. -/
theorem VoteLedger.Sound.run
    {ledger later : VoteLedger}
    {inputs : List WordInput}
    (sound : ledger.Sound)
    (run : runWhile votesKept VoteLedger.advance ledger inputs = some later) :
    later.Sound ∧
      ledger.proc.node.view.term ≤ later.proc.node.view.term := by
  refine runWhile_invariant
    (fun later =>
      later.Sound ∧
        ledger.proc.node.view.term ≤ later.proc.node.view.term)
    (fun _ _ _ holds allowed advanced => ?_) ⟨sound, le_refl _⟩ run
  obtain ⟨nextSound, higher⟩ := holds.1.advance allowed advanced
  exact ⟨nextSound, holds.2.trans higher⟩

/--
One vote per term: in every run of one process whose vote requests name a
candidate and in which no timeout fires in the largest term, the term never
falls, and no two votes given in the same term, by an answer or by an own
candidacy, are for different candidates.
-/
theorem one_vote_per_term
    {n : Nat}
    {members : Membership n}
    {settings : Fin n → Settings}
    {node : Fin n}
    {inputs : List WordInput}
    {ledger : VoteLedger}
    (run :
      runWhile votesKept VoteLedger.advance
        { proc := members.boot settings node } inputs = some ledger) :
    (∀ term first second,
      (term, first) ∈ ledger.casts →
      (term, second) ∈ ledger.casts →
      first = second) ∧
      ∀ more later,
        runWhile votesKept VoteLedger.advance ledger more = some later →
          ledger.proc.server.raft.currentTerm ≤
            later.proc.server.raft.currentTerm := by
  have sound : ledger.Sound :=
    ((boot_voteLedger members settings node).run run).1
  exact ⟨sound.unique, fun more later onward => (sound.run onward).2⟩

/-- Votes for the second member, for the node itself and for the third. -/
def threeVotes : List WordInput :=
  [{ act := .handleVote 1 firstVoteRequest },
   { act := mainAct false }, { act := mainAct true },
   { act := .handleVote 1 { firstVoteRequest with term := 2 } },
   { act := .handleVote 2
       { firstVoteRequest with term := 3, candidateId := 3 } }]

/-- The candidate of term 2 refuses the vote it has given to itself. -/
theorem three_votes_in_three_terms :
    ∃ ledger,
      runWhile votesKept VoteLedger.advance { proc := firstNode }
          threeVotes = some ledger ∧
        ledger.casts = [(3, 3), (2, 1), (1, 2)] ∧
          ∀ term first second,
            (term, first) ∈ ledger.casts →
            (term, second) ∈ ledger.casts →
            first = second := by
  obtain ⟨ledger, run, casts⟩ :
      ∃ ledger,
        runWhile votesKept VoteLedger.advance { proc := firstNode }
            threeVotes = some ledger ∧
          decide (ledger.casts = [(3, 3), (2, 1), (1, 2)]) = true :=
    runWhile_exists (by decide +kernel)
  exact ⟨ledger, run, of_decide_eq_true casts, (one_vote_per_term run).1⟩

/-- Every run whose candidates are named gives one vote in a term. -/
def OneVotePerTerm (start : Process) : Prop :=
  ∀ inputs ledger,
    runWhile candidatesNamed VoteLedger.advance { proc := start } inputs =
        some ledger →
    ∀ term first second,
      (term, first) ∈ ledger.casts →
      (term, second) ∈ ledger.casts →
      first = second

/--
The node votes for the second member in term 1 and for the third one in the
largest term; it then times out into term 0 and is asked for term 1 again.
-/
def voteAfterWrap : List WordInput :=
  [{ act := .handleVote 1 firstVoteRequest },
   { act := .handleVote 2
       { firstVoteRequest with term := 2 ^ 64 - 1, candidateId := 3 } },
   { act := mainAct false }, { act := mainAct true },
   { act := .handleVote 2 { firstVoteRequest with candidateId := 3 } }]

/-- A term that has wrapped comes round to a term with a vote. -/
theorem two_votes_in_term_one :
    ¬ OneVotePerTerm firstNode := by
  intro unique
  obtain ⟨ledger, run, casts⟩ :
      ∃ ledger,
        runWhile candidatesNamed VoteLedger.advance { proc := firstNode }
            voteAfterWrap = some ledger ∧
          decide (ledger.casts =
            [(1, 3), (0, 1), (2 ^ 64 - 1, 3), (1, 2)]) = true :=
    runWhile_exists (by decide +kernel)
  have given := of_decide_eq_true casts
  have same : 3 = 2 :=
    unique voteAfterWrap ledger run 1 3 2 (by simp [given]) (by simp [given])
  cases same

end NvmeofRaft
