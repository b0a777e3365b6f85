import NvmeofRaft.Persist

namespace NvmeofRaft

/-!
# What persisting leaves alone

`persist_circular` changes the ring allocator, the header cache and the file.
Everything else of the server, the whole consensus state included, is the same
before and after a call, whether the call returns or throws.
-/

/-- The server without the fields that persisting writes. -/
def Server.besidesPersist (server : Server) : Server :=
  { server with
    ring := { server.ring with
      tailSlot := 0
      logSlotMap := ∅
      runBuf := {}
      persistedInit := false
      persistedTerm := 0
      persistedVotedFor := 0 }
    io := { server.io with
      file := ByteImage.zeros
      stable := ByteImage.zeros
      outcomes := {}
      headerWrites := []
      persistReturns := [] } }

/-- The server without the file and the header cache. -/
def Server.besidesFile (server : Server) : Server :=
  { server with
    ring := { server.ring with
      persistedInit := false
      persistedTerm := 0
      persistedVotedFor := 0 }
    io := { server.io with
      file := ByteImage.zeros
      stable := ByteImage.zeros
      outcomes := {}
      headerWrites := []
      persistReturns := [] } }

theorem writeAtFile_besidesFile
    (data : List UInt8)
    (offset : Nat) :
    Frames Server.besidesFile (writeAtFile data offset) := by
  refine Frames.bind ?_ fun outcome => ?_
  · exact Frames.bind Frames.get fun _ =>
      Frames.bind (Frames.modifyState fun _ => rfl) fun _ => Frames.pure _
  · cases outcome with
    | done =>
        exact Frames.modifyState fun _ => rfl
    | fails landed =>
        exact Frames.bind (Frames.modifyState fun _ => rfl)
          fun _ => Frames.throw _

theorem fdatasync_besidesFile :
    Frames Server.besidesFile fdatasync := by
  refine Frames.bind ?_ fun outcome => ?_
  · exact Frames.bind Frames.get fun _ =>
      Frames.bind (Frames.modifyState fun _ => rfl) fun _ => Frames.pure _
  · exact Frames.ite (Frames.modifyState fun _ => rfl) (Frames.throw _)

theorem persistHeader_besidesFile :
    Frames Server.besidesFile persistHeader :=
  Frames.bind Frames.get fun _ =>
    Frames.bind (writeAtFile_besidesFile _ _) fun _ =>
      Frames.modifyState fun _ => rfl

theorem persistSync_besidesFile
    (logging : Bool) :
    Frames Server.besidesFile (persistSync logging) :=
  Frames.bind Frames.get fun _ =>
    Frames.ite
      (Frames.bind persistHeader_besidesFile fun _ => fdatasync_besidesFile)
      (Frames.ite fdatasync_besidesFile (Frames.pure _))

/-- A call for the header alone leaves the allocator alone as well. -/
theorem persistHeaderOnly_besidesFile :
    Frames Server.besidesFile (persistCircular false 0) := by
  refine Frames.bind Frames.get fun server => ?_
  have noLog : ¬ ((false = true) ∧
      0 < if 0 = 0 ∧ false = true then server.raft.log.length - 1 else 0) :=
    fun both => Bool.false_ne_true both.1
  dsimp only
  rw [if_neg noLog]
  exact Frames.bind (persistSync_besidesFile false) fun _ =>
    Frames.modifyState fun _ => rfl

theorem flushRun_frames
    (runOff : Nat) :
    Frames Server.besidesPersist (flushRun runOff) := by
  refine Frames.bind Frames.get fun server => Frames.ite (Frames.pure _) ?_
  have written :
      ∀ data offset, Frames Server.besidesPersist (writeAtFile data offset) :=
    fun data offset =>
      (writeAtFile_besidesFile data offset).coarsen Server.besidesPersist
        fun _ => rfl
  exact Frames.bind (written _ _) fun _ =>
    Frames.bind (Frames.modifyState fun _ => rfl) fun _ => Frames.pure _

theorem wrapTail_frames
    (needed runOff : Nat) :
    Frames Server.besidesPersist (wrapTail needed runOff) := by
  refine Frames.bind Frames.get fun server => Frames.ite ?_ (Frames.pure _)
  exact Frames.bind (flushRun_frames _) fun _ =>
    Frames.bind (Frames.modifyState fun _ => rfl) fun _ => Frames.pure _

theorem skipExtentEnd_frames
    (needed runOff : Nat)
    (extHint : Int) :
    Frames Server.besidesPersist (skipExtentEnd needed runOff extHint) := by
  refine Frames.bind Frames.get fun server => Frames.ite (Frames.pure _) ?_
  refine Frames.ite ?_ (Frames.pure _)
  exact Frames.bind (flushRun_frames _) fun _ =>
    Frames.bind (Frames.modifyState fun _ => rfl) fun _ =>
      Frames.bind Frames.get fun _ => Frames.pure _

theorem placeEntry_frames
    (entry : Entry)
    (needed logIdx runOff : Nat) :
    Frames Server.besidesPersist
      (placeEntry entry needed logIdx runOff) := by
  refine Frames.bind Frames.get fun server =>
    Frames.bind (Frames.modifyState fun _ => rfl) fun _ =>
      Frames.ite ?_ (Frames.pure _)
  exact Frames.bind (Frames.modifyState fun _ => rfl) fun _ => Frames.pure _

theorem persistEntries_frames
    (entries : List Entry) :
    ∀ logIdx cursor,
      Frames Server.besidesPersist
        (persistEntries entries logIdx cursor) := by
  induction entries with
  | nil =>
      intro logIdx cursor
      exact Frames.pure _
  | cons entry rest inductionHypothesis =>
      intro logIdx cursor
      refine Frames.bind ?_ fun _ => inductionHypothesis _ _
      exact Frames.bind (wrapTail_frames _ _) fun _ =>
        Frames.bind (skipExtentEnd_frames _ _ _) fun _ =>
          Frames.bind (placeEntry_frames _ _ _ _) fun _ => Frames.pure _

theorem persistLog_frames
    (count : Nat) :
    Frames Server.besidesPersist (persistLog count) :=
  Frames.bind Frames.get fun _ =>
    Frames.bind (Frames.modifyState fun _ => rfl) fun _ =>
      Frames.bind (persistEntries_frames _ _ _) fun _ =>
        Frames.bind (flushRun_frames _) fun _ => Frames.pure _

/-- `persist_circular` keeps everything besides the persisted fields. -/
theorem persistCircular_frames
    (writeLog : Bool)
    (nNewEntries : Nat) :
    Frames Server.besidesPersist
      (persistCircular writeLog nNewEntries) := by
  have noted :
      Frames Server.besidesPersist
        (modify notePersistReturn : Section Unit) :=
    Frames.modifyState fun _ => rfl
  have synced :
      ∀ logging, Frames Server.besidesPersist (persistSync logging) :=
    fun logging =>
      (persistSync_besidesFile logging).coarsen Server.besidesPersist
        fun _ => rfl
  refine Frames.bind Frames.get fun server => Frames.ite ?_ ?_
  · exact Frames.bind (persistLog_frames _) fun _ =>
      Frames.bind (synced _) fun _ => noted
  · exact Frames.bind (synced _) fun _ => noted

end NvmeofRaft
