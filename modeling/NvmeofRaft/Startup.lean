import NvmeofRaft.GuardedRun
import NvmeofRaft.SectionDispatch

namespace NvmeofRaft

/-!
# Start-up and restart

`init_storage` zeroes the whole ring file before it reads the header, so a
process starts with term and vote zero whatever the file held.
-/

/-- No body changes the configuration. -/
theorem body_configuration
    (proc : Process)
    (act : Act) :
    Frames Server.configuration (proc.body act) := by
  by_cases quiet : proc.Quiet act
  · exact body_frames configuration_unaffected quiet
  · rcases body_loud quiet with ⟨load, same⟩ | ⟨sink, commands, same⟩ | same
    · rw [same]
      exact becomeLeader_configuration load
    · rw [same]
      exact (applyCommands_configuration sink commands).discard
    · rw [same]
      exact doSlotGc_configuration

theorem createRingFile_spec
    (kernel : KernelAnswers)
    (sizeBytes : Nat)
    (server : Server) :
    wp (createRingFile kernel sizeBytes)
      (fun _ final =>
        final.raft = server.raft ∧ final.ring = server.ring ∧
          ∀ position, position < sizeBytes → final.io.file position = 0)
      (fun _ final =>
        final.raft = server.raft ∧ final.ring = server.ring) server := by
  simp only [createRingFile, wp_bind, wp_get, wp_ite, wp_throw, wp_modify,
    wp_pure]
  have zeroed :
      ∀ image : ByteImage, ∀ position, position < sizeBytes →
        image.zeroRange sizeBytes position = 0 := by
    intro image position inside
    simp [ByteImage.zeroRange, inside]
  split_ifs
  · exact ⟨trivial, trivial⟩
  · exact ⟨trivial, trivial⟩
  · exact ⟨trivial, trivial⟩
  · exact ⟨trivial, trivial, zeroed _⟩
  · exact ⟨trivial, trivial⟩
  · exact ⟨trivial, trivial, zeroed _⟩

/-- The view every start-up begins with. -/
def View.started (view : View) : View :=
  { view with
    term := 0
    role := .follower
    votes := view.votes.set view.index 0
    log := [0]
    tail := 1
    commit := 0
    applied := 1 }

theorem freshHeader_view
    (server : Server) :
    server.freshHeader.view =
      ({ server.view with term := 0 } : View).withVote 0 := by
  unfold Server.freshHeader
  exact setVotedFor_view _ 0

/-- A header of zeros restores nothing. -/
theorem restoreHeader_view
    (server : Server)
    {header : List UInt8}
    (zeros : ∀ byte, byte ∈ header → byte = 0) :
    (server.restoreHeader header).view =
      ({ server.view with term := 0 } : View).withVote 0 := by
  have noTerm : getU64Le header = 0 := getU64Le_eq_zero zeros
  have noVote : getU64Le (header.drop 8) = 0 :=
    getU64Le_eq_zero fun byte member => zeros byte (List.mem_of_mem_drop member)
  simp only [Server.restoreHeader, noTerm, noVote, ne_eq, not_true_eq_false,
    or_self, if_false]
  exact setVotedFor_view _ 0

theorem resetLog_view
    {server : Server}
    {view : View}
    (restored : server.view = ({ view with term := 0 } : View).withVote 0) :
    server.resetLog.view = view.started := by
  have reset :
      ∀ server : Server,
        server.resetLog.view =
          { server.view with
            role := .follower
            log := [0]
            tail := 1
            commit := 0
            applied := 1 } :=
    fun _ => rfl
  rw [reset, restored]
  rfl

/-- A header of zeros does not fill the header cache. -/
theorem restoreHeader_persistedInit
    (server : Server)
    {header : List UInt8}
    (zeros : ∀ byte, byte ∈ header → byte = 0) :
    (server.restoreHeader header).ring.persistedInit =
      server.ring.persistedInit := by
  have noTerm : getU64Le header = 0 := getU64Le_eq_zero zeros
  have noVote : getU64Le (header.drop 8) = 0 :=
    getU64Le_eq_zero fun byte member => zeros byte (List.mem_of_mem_drop member)
  simp only [Server.restoreHeader, noTerm, noVote, ne_eq, not_true_eq_false,
    or_self, if_false]
  rfl

theorem recoverHeader_spec
    (kernel : KernelAnswers)
    {server : Server}
    (zeroed :
      ∀ position, position < headerSize → server.io.file position = 0) :
    wp (recoverHeader kernel)
      (fun _ final =>
        final.view = ({ server.view with term := 0 } : View).withVote 0 ∧
          (server.ring.persistedInit = false →
            final.ring.persistedInit = false))
      (fun _ _ => False) server := by
  simp only [recoverHeader, readAtFile, wp_tryCatch, wp_bind, wp_get, wp_ite,
    wp_pure, wp_throw, wp_modify]
  split
  · have zeros :
        ∀ byte, byte ∈ server.io.file.read 0 headerSize → byte = 0 := by
      intro byte member
      simp only [ByteImage.read, Nat.zero_add, List.mem_map,
        List.mem_range] at member
      obtain ⟨position, inside, rfl⟩ := member
      exact zeroed position inside
    refine ⟨restoreHeader_view server zeros, fun noCache => ?_⟩
    rw [restoreHeader_persistedInit server zeros]
    exact noCache
  · exact ⟨freshHeader_view server, fun _ => rfl⟩

/-- `init_storage` starts from zero, or leaves the constructed view. -/
theorem initStorage_spec
    (kernel : KernelAnswers)
    {server : Server}
    (headerFits : headerSize ≤ server.ring.fileSizeBytes) :
    wp (initStorage kernel)
      (fun _ final =>
        final.view = server.view.started ∧
          final.raft.log = [{}] ∧
            (server.ring.persistedInit = false →
              final.ring.persistedInit = false))
      (fun _ final => final.view = server.view) server := by
  simp only [initStorage, wp_bind, wp_get]
  refine wp_mono (createRingFile_spec kernel _ server) ?_ ?_
  · rintro actual middle ⟨sameRaft, sameRing, zeroed⟩
    have sameView : middle.view = server.view := by
      simp only [Server.view, sameRaft, sameRing]
    simp only [wp_ite, wp_bind, wp_throw]
    split_ifs
    · exact sameView
    · exact sameView
    · cases kernel.fiemap with
      | none =>
          exact sameView
      | some extents =>
          simp only [wp_bind, wp_modify, wp_discard]
          refine wp_mono (getPba_spec _ _ _) ?_ ?_
          · rintro _ final rfl
            have headerZero :
                ∀ position, position < headerSize →
                  middle.io.file position = 0 :=
              fun position inside =>
                zeroed position (Nat.lt_of_lt_of_le inside headerFits)
            refine wp_mono (recoverHeader_spec kernel headerZero) ?_ ?_
            · rintro _ restored ⟨viewed, cache⟩
              refine ⟨resetLog_view ?_, rfl, fun noCache => cache ?_⟩
              · rw [viewed, ← sameView]
                rfl
              · rw [← sameRing] at noCache
                exact noCache
            · exact fun _ _ impossible => impossible.elim
          · rintro _ final rfl
            exact sameView
  · rintro _ final ⟨sameRaft, sameRing⟩
    simp only [Server.view, sameRaft, sameRing]

theorem restoreHeader_configuration
    (server : Server)
    (header : List UInt8) :
    (server.restoreHeader header).configuration = server.configuration := by
  unfold Server.restoreHeader
  generalize getU64Le header = headerTerm
  generalize getU64Le (header.drop 8) = headerVote
  dsimp only
  split <;>
    exact congrArg Ground.configuration (setVotedFor_ground _ headerVote)

/-- Creating the ring file leaves the consensus state and the ring alone. -/
theorem createRingFile_frames
    {γ : Type}
    {view : Server → γ}
    (outside :
      ∀ first second : Server,
        first.raft = second.raft →
        first.ring = second.ring →
        view first = view second)
    (kernel : KernelAnswers)
    (sizeBytes : Nat) :
    Frames view (createRingFile kernel sizeBytes) := by
  intro server
  have spec := createRingFile_spec kernel sizeBytes server
  unfold wp at spec
  cases ended : (createRingFile kernel sizeBytes).run server with
  | ok actual final =>
      rw [ended] at spec
      exact outside _ _ spec.1 spec.2.1
  | error exn final =>
      rw [ended] at spec
      exact outside _ _ spec.1 spec.2

/-- A view that no part of a start changes is the same after it. -/
theorem initStorage_frames
    {γ : Type}
    {view : Server → γ}
    {kernel : KernelAnswers}
    (created : ∀ sizeBytes, Frames view (createRingFile kernel sizeBytes))
    (mapped :
      ∀ (server : Server) extents,
        view { server with io := { server.io with extents } } = view server)
    (restored :
      ∀ server header, view (Server.restoreHeader server header) = view server)
    (fresh : ∀ server, view (Server.freshHeader server) = view server)
    (reset : ∀ server, view (Server.resetLog server) = view server) :
    Frames view (initStorage kernel) := by
  have recovered : Frames view (recoverHeader kernel) := by
    refine Frames.tryCatch ?_ fun exn => Frames.modifyState fresh
    refine Frames.bind ?_ fun header => Frames.modifyState fun server =>
      restored server header
    exact Frames.bind Frames.get fun _ =>
      Frames.ite (Frames.pure _) (Frames.throw _)
  refine Frames.bind Frames.get fun server =>
    Frames.bind (created _) fun actual =>
      Frames.ite (Frames.throw _) (Frames.ite (Frames.throw _) ?_)
  split
  · exact Frames.throw _
  · rename_i extents _
    exact Frames.bind (Frames.modifyState fun server => mapped server extents)
      fun _ => Frames.bind (getPba_frames _ _).discard fun _ =>
        Frames.bind recovered fun _ => Frames.modifyState reset

theorem initStorage_configuration
    (kernel : KernelAnswers) :
    Frames Server.configuration (initStorage kernel) := by
  refine initStorage_frames (createRingFile_frames ?_ kernel)
    (fun _ _ => rfl) restoreHeader_configuration ?_ ?_
  · intro first second sameRaft sameRing
    simp only [Server.configuration, sameRaft, sameRing]
  · exact fun server =>
      congrArg Ground.configuration (setVotedFor_ground _ 0)
  · exact fun server => rfl

theorem constructed_configuration
    (server : Server) :
    server.constructed.configuration = server.configuration := by
  simp [Server.constructed, Server.configuration]

theorem startUp_configuration
    (proc : Process)
    (outcomes : IoOutcomes)
    (kernel : KernelAnswers) :
    (proc.startUp outcomes kernel).1.server.configuration =
      proc.server.configuration := by
  have spec := (initStorage_configuration kernel).ends
    (proc.server.constructed.withOutcomes outcomes)
  refine execOrHalt_wp
    (fun result => result.1.server.configuration = _) spec ?_ ?_
  · intro _ final same
    exact same.trans (constructed_configuration proc.server)
  · intro _ final same
    exact same.trans (constructed_configuration proc.server)

/-- No step changes the configuration. -/
theorem Process.step_configuration
    {proc : Process}
    {outcomes : IoOutcomes}
    {act : Act}
    {result : Process × Outputs}
    (stepped : proc.step outcomes act = some result) :
    result.1.server.configuration = proc.server.configuration := by
  by_cases restarts : ∃ kernel cacheLost, act = .restart kernel cacheLost
  · obtain ⟨kernel, cacheLost, rfl⟩ := restarts
    simp only [Process.step, Option.some.injEq] at stepped
    rw [← stepped]
    exact startUp_configuration _ outcomes kernel
  · exact Process.step_keeps (body_configuration proc act) (fun _ _ => rfl)
      stepped fun kernel cacheLost same => restarts ⟨kernel, cacheLost, same⟩

/-- The configuration at the end of a run is the one of its start. -/
theorem run_configuration
    {allowed : Process → Input → Bool}
    {start final : Process}
    {inputs : List Input}
    (run : runWhile allowed Process.advance start inputs = some final) :
    final.server.configuration = start.server.configuration := by
  refine runWhile_invariant
    (fun proc => proc.server.configuration = start.server.configuration)
    (fun proc input next same _ advanced => ?_) rfl run
  obtain ⟨result, stepped, rfl⟩ := Option.map_eq_some_iff.mp advanced
  exact (Process.step_configuration stepped).trans same

/-- A booted node has room for the file header. -/
theorem boot_headerFits
    {n : Nat}
    (members : Membership n)
    (settings : Fin n → Settings)
    (node : Fin n) :
    headerSize ≤ (members.boot settings node).server.ring.fileSizeBytes := by
  have same : (members.boot settings node).server.configuration.numPages =
      (members.server settings node).configuration.numPages :=
    congrArg Configuration.numPages (startUp_configuration _ _ _)
  have pages : 2 ≤ (members.server settings node).ring.numPages := by
    simp only [Membership.server, RingLog.configure]
    split <;> omega
  simp only [Server.configuration] at same
  simp only [RingLog.fileSizeBytes, same, headerSize, sectorSize, pageSize]
  omega

/-- The states a node reaches from its first start. -/
def Process.Reaches
    (start : Process)
    (inputs : List Input)
    (final : Process) : Prop :=
  runWhile (fun _ _ => true) Process.advance start inputs = some final

/--
`after` is the process that a successful restart makes of `before`, whose last
header write put this term and vote at file offset 0.
-/
structure RestartOf
    (before after : Process)
    (term vote : Nat) : Prop where
  lastWrite : before.server.io.headerWrites.head? = some (term, vote)
  restarted :
    ∃ kernel cacheLost,
      before.advance { act := .restart kernel cacheLost } = some after
  running : after.halted = false

/-- The term and vote in memory. -/
def Server.termAndVote (server : Server) : Nat × Nat :=
  (server.raft.currentTerm, server.getVotedFor)

/-- A running process that was just started has term and vote zero. -/
theorem startUp_termAndVote
    {proc : Process}
    {outcomes : IoOutcomes}
    {kernel : KernelAnswers}
    (headerFits : headerSize ≤ proc.server.ring.fileSizeBytes)
    (running : (proc.startUp outcomes kernel).1.halted = false) :
    (proc.startUp outcomes kernel).1.server.termAndVote = (0, 0) := by
  have spec :
      wp (initStorage kernel)
        (fun _ final => final.view = proc.server.constructed.view.started)
        (fun _ final => final.view = proc.server.constructed.view)
        (proc.server.constructed.withOutcomes outcomes) :=
    wp_mono (initStorage_spec kernel headerFits)
      (fun _ _ started => started.1) fun _ _ kept => kept
  revert running
  refine execOrHalt_wp
    (fun result => result.1.halted = false →
      result.1.server.termAndVote = (0, 0)) spec ?_ ?_
  · intro _ final viewed _
    have noTerm : final.view.term = 0 := by
      rw [viewed]
      rfl
    have noVote : final.view.vote = 0 := by
      rw [viewed]
      simp only [View.vote, View.started, List.getD_eq_getElem?_getD,
        List.getElem?_set]
      split_ifs <;> rfl
    simp only [Server.termAndVote, getVotedFor_eq, noVote, Prod.mk.injEq,
      and_true]
    exact noTerm
  · intro _ final _ halted
    cases halted

/-- Whatever the run wrote, a restart begins with term and vote zero. -/
theorem restart_termAndVote
    {n : Nat}
    {members : Membership n}
    {settings : Fin n → Settings}
    {node : Fin n}
    {inputs : List Input}
    {before after : Process}
    {term vote : Nat}
    (reached : (members.boot settings node).Reaches inputs before)
    (restart : RestartOf before after term vote) :
    after.server.termAndVote = (0, 0) := by
  obtain ⟨kernel, cacheLost, advanced⟩ := restart.restarted
  have restarted : (before.stepRestart {} kernel cacheLost).1 = after := by
    simpa [Process.advance, Process.step] using advanced
  have samePages :
      before.server.ring.numPages =
        (members.boot settings node).server.ring.numPages :=
    congrArg Configuration.numPages (run_configuration reached)
  have headerFits : headerSize ≤ before.server.ring.fileSizeBytes := by
    rw [RingLog.fileSizeBytes, samePages]
    exact boot_headerFits members settings node
  have running := restart.running
  rw [← restarted] at running ⊢
  exact startUp_termAndVote headerFits running

/--
`init_storage` restores the last header exactly when that header was still
the zero header: the file is zeroed before the header is read.
-/
theorem restart_restores_header_iff
    {n : Nat}
    {members : Membership n}
    {settings : Fin n → Settings}
    {node : Fin n}
    {inputs : List Input}
    {before after : Process}
    {term vote : Nat}
    (reached : (members.boot settings node).Reaches inputs before)
    (restart : RestartOf before after term vote) :
    after.server.termAndVote = (term, vote) ↔ term = 0 ∧ vote = 0 := by
  rw [restart_termAndVote reached restart, Prod.mk.injEq]
  exact ⟨fun same => ⟨same.1.symm, same.2.symm⟩,
    fun same => ⟨same.1.symm, same.2.symm⟩⟩

/-- Every restart restores the term and vote of the last header write. -/
def RestoresHeader (start : Process) : Prop :=
  ∀ inputs before after term vote,
    start.Reaches inputs before →
    RestartOf before after term vote →
    after.server.termAndVote = (term, vote)

/-- Find a run and a restart by evaluation. -/
theorem restartOf_exists
    {start : Process}
    {inputs : List Input}
    {term vote : Nat}
    (kernel : KernelAnswers)
    (checked :
      (runWhile (fun _ _ => true) Process.advance start inputs).any
        (fun before =>
          decide (before.server.io.headerWrites.head? = some (term, vote)) &&
            (before.advance { act := .restart kernel false }).any
              fun after => !after.halted) = true) :
    ∃ before after,
      start.Reaches inputs before ∧ RestartOf before after term vote := by
  obtain ⟨before, reached, passes⟩ := runWhile_exists checked
  simp only [Bool.and_eq_true, decide_eq_true_eq] at passes
  cases advanced : before.advance { act := .restart kernel false } with
  | none =>
      rw [advanced] at passes
      cases passes.2
  | some after =>
      rw [advanced] at passes
      refine ⟨before, after, reached, passes.1, ⟨kernel, false, advanced⟩, ?_⟩
      simpa using passes.2

/-- The first node of a fresh cluster. -/
def firstNode : Process :=
  threeMembers.boot (fun _ => smallRing) firstMember

/-- A heartbeat of term zero makes a fresh node write the zero header. -/
def zeroHeartbeat : AppendEntriesRequest where
  term := 0
  leaderId := 2
  prevLogIndex := 0
  prevLogTerm := 0
  leaderCommit := 0
  leaderPbaSrc := 0
  logBlockLength := 0
  numEntries := 0
  slotsPerEntry := 0
  startSlot := 0
  leaderDevIndex := 1
  entryMetas := []

/-- A vote request of term 1 from the second member. -/
def firstVoteRequest : RequestVoteRequest where
  term := 1
  candidateId := 2
  lastLogIndex := 0
  lastLogTerm := 0

/-- An append request of term 1 that brings the first entry. -/
def firstEntryRequest : AppendEntriesRequest where
  term := 1
  leaderId := 2
  prevLogIndex := 0
  prevLogTerm := 0
  leaderCommit := 0
  leaderPbaSrc := 4608
  logBlockLength := 1
  numEntries := 1
  slotsPerEntry := 1
  startSlot := 0
  leaderDevIndex := 1
  entryMetas := [{ term := 1, cmdLen := 0 }]

/-- The zero header is the one that a restart does restore. -/
theorem restart_restores_zero_header :
    ∃ before after,
      firstNode.Reaches [{ act := .handleAppend 1 zeroHeartbeat }] before ∧
        RestartOf before after 0 0 ∧
          after.server.termAndVote = (0, 0) := by
  obtain ⟨before, after, reached, restart⟩ :
      ∃ before after,
        firstNode.Reaches [{ act := .handleAppend 1 zeroHeartbeat }] before ∧
          RestartOf before after 0 0 :=
    restartOf_exists smallRingAnswers (by decide +kernel)
  exact ⟨before, after, reached, restart,
    (restart_restores_header_iff reached restart).mpr ⟨rfl, rfl⟩⟩

/-- The first timeout of a node: a candidacy in term 1 with its own vote. -/
def electionInputs : List Input :=
  [{ act := mainAct false }, { act := mainAct true }]

/-- The term and vote of a first election do not survive a restart. -/
theorem restart_loses_election_header :
    ¬ RestoresHeader firstNode := by
  intro restores
  obtain ⟨before, after, reached, restart⟩ :
      ∃ before after,
        firstNode.Reaches electionInputs before ∧
          RestartOf before after 1 1 :=
    restartOf_exists smallRingAnswers (by decide +kernel)
  have kept := restores electionInputs before after 1 1 reached restart
  rw [restart_termAndVote reached restart] at kept
  simp at kept

end NvmeofRaft
