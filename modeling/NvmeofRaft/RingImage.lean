import NvmeofRaft.AppendedCommands
import NvmeofRaft.EntryReadBack

namespace NvmeofRaft

/-!
# The image of placed entries

The part of the ring file behind the header.  Only `persist_circular` with new
entries writes to it, so it holds each entry that a leader has placed until a
later one is placed over it.
-/

/-- The bytes of the ring slots; the file header is left out. -/
def Server.ringPart (server : Server) : ByteImage := fun position =>
  if position < headerSize then 0 else server.io.file position

theorem ringPart_of_le
    (server : Server)
    {position : Nat}
    (behind : headerSize ≤ position) :
    server.ringPart position = server.io.file position :=
  if_neg (Nat.not_lt.mpr behind)

theorem writeAtFile_ringPart
    {data : List UInt8}
    (fits : data.length ≤ headerSize) :
    Frames Server.ringPart (writeAtFile data 0) := by
  have header :
      ∀ (server : Server) (bytes : List UInt8),
        bytes.length ≤ headerSize →
        Server.ringPart { server with
          io := { server.io with file := server.io.file.write 0 bytes } } =
            server.ringPart := by
    intro server bytes short
    funext position
    unfold Server.ringPart
    split
    · rfl
    · exact ByteImage.write_of_ge (by omega)
  refine Frames.bind ?_ fun outcome => ?_
  · exact Frames.bind Frames.get fun _ =>
      Frames.bind (Frames.modifyState fun _ => rfl) fun _ => Frames.pure _
  · cases outcome with
    | done =>
        exact Frames.modifyState fun server => header server data fits
    | fails landed =>
        have short : (data.take landed).length ≤ headerSize :=
          (List.length_take_le' _ _).trans fits
        exact Frames.bind
          (Frames.modifyState fun server => header server _ short)
          fun _ => Frames.throw _

theorem persistHeaderOnly_ringPart :
    Frames Server.ringPart (persistCircular false 0) := by
  have synced : Frames Server.ringPart fdatasync := by
    refine Frames.bind ?_ fun outcome => ?_
    · exact Frames.bind Frames.get fun _ =>
        Frames.bind (Frames.modifyState fun _ => rfl) fun _ => Frames.pure _
    · exact Frames.ite (Frames.modifyState fun _ => rfl) (Frames.throw _)
  have written : Frames Server.ringPart persistHeader :=
    Frames.bind Frames.get fun server =>
      Frames.bind
        (writeAtFile_ringPart (length_encodeHeader server).le)
        fun _ => Frames.modifyState fun _ => rfl
  refine Frames.bind Frames.get fun server => ?_
  have noLog : ¬ ((false = true) ∧
      0 < if 0 = 0 ∧ false = true then server.raft.log.length - 1 else 0) :=
    fun both => Bool.false_ne_true both.1
  dsimp only
  rw [if_neg noLog]
  refine Frames.bind (Frames.bind Frames.get fun _ => ?_) fun _ =>
    Frames.modifyState fun _ => rfl
  exact Frames.ite (Frames.bind written fun _ => synced)
    (Frames.ite synced (Frames.pure _))

/-- The ring part of the file is part of what consensus leaves alone. -/
def Ground.ringPart (ground : Ground) : ByteImage := fun position =>
  if position < headerSize then 0 else ground.io.file position

theorem ringPart_unaffected :
    Unaffected Server.ringPart where
  header := persistHeaderOnly_ringPart
  demote server msgTerm :=
    congrArg Ground.ringPart (demote_ground server msgTerm)
  startElection server :=
    congrArg Ground.ringPart (startElection_ground server)
  setVotedFor server vote :=
    congrArg Ground.ringPart (setVotedFor_ground server vote)
  recordVote server peerIndex :=
    congrArg Ground.ringPart (recordVote_ground server peerIndex)
  stepDown server req :=
    congrArg Ground.ringPart
      (ground_of_besidesLog (stepDown_besidesLog server req))
  tailSlot _ _ := rfl
  buildLog server req newTail skipEntries :=
    congrArg Ground.ringPart
      (ground_of_besidesLog
        (buildLog_besidesLog server req newTail skipEntries))
  followCommit _ _ := rfl
  clampNext server fi :=
    congrArg Ground.ringPart (clampNext_ground server fi)
  setInflight server fi inflight :=
    congrArg Ground.ringPart (setInflight_ground server fi inflight)
  bookAnswer server fi call answer :=
    congrArg Ground.ringPart (bookAnswer_ground server fi call answer)
  commitTo server majorityIdx :=
    congrArg Ground.ringPart
      (ground_of_besidesLog (commitTo_besidesLog server majorityIdx))
  applyCommitted server :=
    congrArg Ground.ringPart
      (ground_of_besidesLog (applyCommitted_besidesLog server))

theorem collectGarbage_ringPart
    (server : Server) :
    server.collectGarbage.ringPart = server.ringPart :=
  congrArg Ground.ringPart
    (ground_of_besidesLog (collectGarbage_besidesLog server))

theorem collectGarbage_layout
    (server : Server) :
    server.collectGarbage.layout = server.layout :=
  congrArg Ground.layout
    (ground_of_besidesLog (collectGarbage_besidesLog server))

section

variable {γ : Type} {view : Server → γ}
variable (unaffected : Unaffected view)
variable
  (noInput :
    ∀ server outcomes, view (Server.withOutcomes server outcomes) =
      view server)

include unaffected noInput

/-- A step that neither wins an election nor appends as a leader. -/
theorem Process.step_unled
    {proc : Process}
    {outcomes : IoOutcomes}
    {act : Act}
    {result : Process × Outputs}
    (stepped : proc.step outcomes act = some result)
    (noRestart : ∀ kernel cacheLost, act ≠ .restart kernel cacheLost)
    (noWin : proc.node.wins act = false)
    (noAppend :
      ∀ sink commands,
        act = .apply sink commands → proc.server.raft.state ≠ .leader)
    (collects :
      act = .slotGc →
      view (proc.server.withOutcomes outcomes).collectGarbage =
        view (proc.server.withOutcomes outcomes)) :
    view result.1.server = view proc.server := by
  by_cases quiet : proc.Quiet act
  · exact Process.step_keeps (body_frames unaffected quiet) noInput stepped
      noRestart
  · have spec :
        proc.BodySpec outcomes act
          (fun final => view final = view proc.server)
          (fun final => view final = view proc.server) := by
      unfold Process.BodySpec
      cases act with
      | main expired load =>
          have pc : proc.main = .becomeLeader := not_not.mp quiet
          have lost : proc.server.quorumLeft ≠ 0 := by
            intro won
            rw [quorumLeft_eq] at won
            have wins : proc.node.wins (.main expired load) = true :=
              Bool.and_eq_true_iff.mpr
                ⟨decide_eq_true pc, decide_eq_true won⟩
            rw [noWin] at wins
            cases wins
          have lost' :
              ¬ (proc.server.withOutcomes outcomes).quorumLeft = 0 :=
            lost
          simp only [Process.body, MainPc.body, pc, becomeLeader, wp_bind,
            wp_get, wp_ite, if_neg lost', wp_pure]
          exact noInput _ _
      | apply sink commands =>
          have other :
              (proc.server.withOutcomes outcomes).raft.state ≠ .leader :=
            noAppend sink commands rfl
          simp only [Process.body, applyCommands, wp_discard, wp_bind, wp_get,
            wp_ite, wp_pure, if_pos other]
          split
          · exact noInput _ _
          · exact noInput _ _
      | slotGc =>
          simp only [Process.body, doSlotGc, wp_modify]
          exact (collects rfl).trans (noInput _ _)
      | _ =>
          exact absurd trivial quiet
    rcases Process.step_ends spec stepped noRestart with
      unchanged | returned | ⟨threw, -⟩
    · rw [unchanged]
    · exact returned
    · exact threw

end

/-- Two placed entries share no slot. -/
def SlotsApart (first second : Entry × Nat) : Prop :=
  second.2 + second.1.needed ≤ first.2 ∨ first.2 + first.1.needed ≤ second.2

instance SlotsApart.decidable
    (first second : Entry × Nat) :
    Decidable (SlotsApart first second) :=
  inferInstanceAs (Decidable (_ ∨ _))

/-- No later entry has been placed over the one at the position. -/
def Uncovered
    (placed : List (Entry × Nat))
    (position : Nat)
    (item : Entry × Nat) : Prop :=
  ∀ later ∈ placed.drop (position + 1), SlotsApart item later

instance Uncovered.decidable
    (placed : List (Entry × Nat))
    (position : Nat)
    (item : Entry × Nat) :
    Decidable (Uncovered placed position item) :=
  inferInstanceAs (Decidable (∀ _ ∈ _, _))

theorem HoldsEntry.congr
    {file after : ByteImage}
    {entry : Entry}
    {logIdx start : Nat}
    (holds : HoldsEntry file entry logIdx start)
    (same :
      ∀ position,
        slotOffset start ≤ position →
        position < slotOffset start + entry.needed * sectorSize →
        after position = file position) :
    HoldsEntry after entry logIdx start := by
  refine ⟨?_⟩
  rw [← holds.encoded]
  exact ByteImage.read_congr same

/-- The file holds every placed entry that no later one has been placed over. -/
def HoldsPlaced
    (file : ByteImage)
    (placed : List (Entry × Nat)) : Prop :=
  ∀ position entry start,
    placed[position]? = some (entry, start) →
    Uncovered placed position (entry, start) →
    HoldsEntry file entry (position + 1) start

theorem holdsPlaced_nil
    (file : ByteImage) :
    HoldsPlaced file [] := by
  intro position entry start found
  cases found

/-- Only the ring part matters. -/
theorem HoldsPlaced.of_ringPart
    {before after : Server}
    {placed : List (Entry × Nat)}
    (holds : HoldsPlaced before.io.file placed)
    (same : after.ringPart = before.ringPart) :
    HoldsPlaced after.io.file placed := by
  intro position entry start found uncovered
  refine (holds position entry start found uncovered).congr
    fun byte behind _ => ?_
  have inSlots : headerSize ≤ byte :=
    Nat.le_trans (headerSize_le_slotOffset start) behind
  rw [← ringPart_of_le after inSlots, same, ringPart_of_le before inSlots]

/-- Writing new entries keeps the older ones that they leave uncovered. -/
theorem HoldsPlaced.append
    {file after : ByteImage}
    {placed added : List (Entry × Nat)}
    (holds : HoldsPlaced file placed)
    (written :
      ∀ position,
        headerSize ≤ position →
        after position =
          writeEntries added (placed.length + 1) file position) :
    HoldsPlaced after (placed ++ added) := by
  intro position entry start found uncovered
  have image :
      HoldsEntry (writeEntries added (placed.length + 1) file) entry
        (position + 1) start := by
    by_cases old : position < placed.length
    · rw [List.getElem?_append_left old] at found
      have drop :
          (placed ++ added).drop (position + 1) =
            placed.drop (position + 1) ++ added :=
        List.drop_append_of_le_length old
      have before := holds position entry start found fun later held =>
        uncovered later (drop ▸ List.mem_append_left _ held)
      refine ⟨(writeEntries_apart added _ _ ?_).trans before.encoded⟩
      intro other slot held
      exact uncovered (other, slot) (drop ▸ List.mem_append_right _ held)
    · rw [List.getElem?_append_right (Nat.le_of_not_lt old)] at found
      have drop :
          (placed ++ added).drop (position + 1) =
            added.drop (position - placed.length + 1) := by
        rw [List.drop_append, List.drop_of_length_le (by omega),
          List.nil_append]
        congr 1
        omega
      have new := writeEntries_holds added (placed.length + 1) file
        (position - placed.length) found fun other slot held =>
          uncovered (other, slot) (drop ▸ held)
      have index :
          placed.length + 1 + (position - placed.length) = position + 1 := by
        omega
      rwa [index] at new
  exact image.congr fun byte behind _ =>
    written byte (Nat.le_trans (headerSize_le_slotOffset start) behind)

end NvmeofRaft
