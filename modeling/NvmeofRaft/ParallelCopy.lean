import NvmeofRaft.BlockCopy
import NvmeofRaft.DisjointTasks

namespace NvmeofRaft

/-!
# The workers of a batch copy

The threads of `handle_write_pba_batch` (`raft_blockcopy_server.cpp`).  Worker
`wid` takes the chunks `wid`, `wid + w`, and so on, each with one `pread` into
the worker's buffer and one `pwrite` out of it (`write_pba_copy_buf`).  Every
system call, the exchange of `has_error`, the write of `first_error` and the
return of a worker is a step of its own; a schedule names the worker that steps
and what the system call answers.
-/

/-- A batch that has passed the checks. -/
structure CopyJob where
  srcDev : Nat
  dstDev : Nat
  chunks : List PbaChunk
  /-- `buf_caps`: the buffers, one for each worker. -/
  bufCaps : List Nat
  staffed : 0 < bufCaps.length
  fits : ∀ cap ∈ bufCaps, ∀ chunk ∈ chunks, chunk.nbytes ≤ cap

/-- Where a worker stands. -/
inductive CopyPhase where
  /-- At the head of the loop. -/
  | reading
  /-- Between `pread` and `pwrite`, with what the buffer holds. -/
  | writing (data : List UInt8) (readNs : Nat)
  /-- `rc != 0`, before the exchange. -/
  | failed
  /-- Won the exchange, before `first_error` is set. -/
  | reporting
  | returned
  deriving Repr, DecidableEq

/-- A worker: its loop variable, its place and its own statistics. -/
structure CopyWorker where
  entry : Nat
  phase : CopyPhase
  localRead : Nat := 0
  localWrite : Nat := 0
  deriving Repr, DecidableEq

inductive Direction where
  | read
  | write
  deriving Repr, DecidableEq

/-- One system call of the batch. -/
structure Transfer where
  entry : Nat
  direction : Direction
  full : Bool
  deriving Repr, DecidableEq

/-- What the workers share, the workers, and the calls made so far. -/
structure CopyState where
  devices : Devices
  workers : Nat → CopyWorker
  hasError : Bool := false
  firstError : String := ""
  totalReadNs : Nat := 0
  totalWriteNs : Nat := 0
  transfers : List Transfer := []

/-- One turn of the scheduler. -/
structure CopyMove where
  worker : Nat
  /-- What the system call returns; `none` is `-1`. -/
  moved : Option Nat
  nanos : Nat
  deriving Repr, DecidableEq

namespace CopyState

def setWorker
    (state : CopyState)
    (wid : Nat)
    (worker : CopyWorker) :
    CopyState :=
  { state with workers := Function.update state.workers wid worker }

def called
    (state : CopyState)
    (transfer : Transfer) :
    CopyState :=
  { state with transfers := state.transfers ++ [transfer] }

end CopyState

namespace CopyJob

/-- The text a failing worker leaves. -/
def failureText
    (wid entry : Nat) :
    String :=
  "worker " ++ toString wid ++ " entry " ++ toString entry ++ " failed"

/-- The bytes of a `pwrite` that reach the device. -/
def land
    (job : CopyJob)
    (devices : Devices)
    (chunk : PbaChunk)
    (data : List UInt8) :
    Devices :=
  Function.update devices job.dstDev
    ((devices job.dstDev).write chunk.dst data)

/-- The threads start. -/
def start
    (_ : CopyJob)
    (devices : Devices) :
    CopyState where
  devices := devices
  workers wid := { entry := wid, phase := .reading }

/-- `pread`, or the end of the loop. -/
def stepReading
    (job : CopyJob)
    (move : CopyMove)
    (worker : CopyWorker)
    (state : CopyState) :
    Option CopyState :=
  match job.chunks[worker.entry]?, job.bufCaps[move.worker]? with
  | none, _ =>
      some
        { state.setWorker move.worker { worker with phase := .returned } with
          totalReadNs := state.totalReadNs + worker.localRead
          totalWriteNs := state.totalWriteNs + worker.localWrite }
  | some chunk, some cap =>
      if cap < chunk.nbytes then
        -- The buffer would overflow.
        none
      else if move.moved = some chunk.nbytes then
        some ((state.called ⟨worker.entry, .read, true⟩).setWorker move.worker
          { worker with
            phase :=
              .writing ((state.devices job.srcDev).read chunk.src chunk.nbytes)
                move.nanos })
      else
        some ((state.called ⟨worker.entry, .read, false⟩).setWorker move.worker
          { worker with phase := .failed })
  | some _, none => none

/-- `pwrite`. A short one leaves the bytes it counts. -/
def stepWriting
    (job : CopyJob)
    (move : CopyMove)
    (worker : CopyWorker)
    (data : List UInt8)
    (readNs : Nat)
    (state : CopyState) :
    Option CopyState :=
  match job.chunks[worker.entry]? with
  | none => none
  | some chunk =>
      if move.moved = some chunk.nbytes then
        some { (state.called ⟨worker.entry, .write, true⟩).setWorker move.worker
          { worker with
            entry := worker.entry + job.bufCaps.length
            phase := .reading
            localRead := worker.localRead + readNs
            localWrite := worker.localWrite + move.nanos } with
          devices := job.land state.devices chunk data }
      else
        some { (state.called ⟨worker.entry, .write, false⟩).setWorker move.worker
          { worker with phase := .failed } with
          devices :=
            job.land state.devices chunk (data.take (move.moved.getD 0)) }

/-- One step of one worker. -/
def step
    (job : CopyJob)
    (state : CopyState)
    (move : CopyMove) :
    Option CopyState :=
  if move.worker < job.bufCaps.length then
    let worker := state.workers move.worker
    match worker.phase with
    | .reading => job.stepReading move worker state
    | .writing data readNs => job.stepWriting move worker data readNs state
    | .failed =>
        if state.hasError then
          some (state.setWorker move.worker { worker with phase := .returned })
        else
          some { state.setWorker move.worker { worker with phase := .reporting }
            with hasError := true }
    | .reporting =>
        some { state.setWorker move.worker { worker with phase := .returned }
          with firstError := failureText move.worker worker.entry }
    | .returned => none
  else
    none

/-- A schedule. -/
def run
    (job : CopyJob) :
    List CopyMove → CopyState → Option CopyState
  | [], state => some state
  | move :: moves, state => (job.step state move).bind (job.run moves)

/-- Every thread can be joined. -/
def Joined
    (job : CopyJob)
    (state : CopyState) : Prop :=
  ∀ wid < job.bufCaps.length, (state.workers wid).phase = .returned

instance (job : CopyJob) (state : CopyState) : Decidable (job.Joined state) :=
  inferInstanceAs (Decidable (∀ wid < job.bufCaps.length, _))

/-- The steps of a worker, by the place it steps from. -/
inductive Stepped
    (job : CopyJob)
    (state : CopyState)
    (wid : Nat) :
    CopyState → Prop where
  | exhausted
      (reading : (state.workers wid).phase = .reading)
      (through : job.chunks[(state.workers wid).entry]? = none)
      (readNs writeNs : Nat) :
      Stepped job state wid
        { state.setWorker wid
            { state.workers wid with phase := .returned } with
          totalReadNs := readNs
          totalWriteNs := writeNs }
  | read
      (reading : (state.workers wid).phase = .reading)
      {chunk : PbaChunk}
      (found : job.chunks[(state.workers wid).entry]? = some chunk)
      (readNs : Nat) :
      Stepped job state wid
        ((state.called ⟨(state.workers wid).entry, .read, true⟩).setWorker wid
          { state.workers wid with
            phase :=
              .writing ((state.devices job.srcDev).read chunk.src chunk.nbytes)
                readNs })
  | readFailed
      (reading : (state.workers wid).phase = .reading) :
      Stepped job state wid
        ((state.called ⟨(state.workers wid).entry, .read, false⟩).setWorker wid
          { state.workers wid with phase := .failed })
  | wrote
      {data : List UInt8}
      {readNs : Nat}
      (writing : (state.workers wid).phase = .writing data readNs)
      {chunk : PbaChunk}
      (found : job.chunks[(state.workers wid).entry]? = some chunk)
      (localRead localWrite : Nat) :
      Stepped job state wid
        { (state.called ⟨(state.workers wid).entry, .write, true⟩).setWorker wid
            { entry := (state.workers wid).entry + job.bufCaps.length
              phase := .reading
              localRead
              localWrite } with
          devices := job.land state.devices chunk data }
  | writeFailed
      {data : List UInt8}
      {readNs : Nat}
      (writing : (state.workers wid).phase = .writing data readNs)
      {chunk : PbaChunk}
      (found : job.chunks[(state.workers wid).entry]? = some chunk)
      (devices : Devices) :
      Stepped job state wid
        { (state.called ⟨(state.workers wid).entry, .write, false⟩).setWorker
            wid { state.workers wid with phase := .failed } with
          devices }
  | claimed
      (failed : (state.workers wid).phase = .failed)
      (first : state.hasError = false) :
      Stepped job state wid
        { state.setWorker wid
            { state.workers wid with phase := .reporting } with
          hasError := true }
  | beaten
      (failed : (state.workers wid).phase = .failed)
      (taken : state.hasError = true) :
      Stepped job state wid
        (state.setWorker wid { state.workers wid with phase := .returned })
  | reported
      (reporting : (state.workers wid).phase = .reporting) :
      Stepped job state wid
        { state.setWorker wid
            { state.workers wid with phase := .returned } with
          firstError := failureText wid (state.workers wid).entry }

variable
  {job : CopyJob}
  {state next : CopyState}
  {move : CopyMove}

theorem stepReading_stepped
    (reading : (state.workers move.worker).phase = .reading)
    (stepped :
      job.stepReading move (state.workers move.worker) state = some next) :
    job.Stepped state move.worker next := by
  unfold stepReading at stepped
  split at stepped
  · rename_i through
    cases stepped
    exact .exhausted reading through _ _
  · rename_i chunk cap found _
    split at stepped
    · cases stepped
    · split at stepped
      · cases stepped
        exact .read reading found _
      · cases stepped
        exact .readFailed reading
  · cases stepped

theorem stepWriting_stepped
    {data : List UInt8}
    {readNs : Nat}
    (writing : (state.workers move.worker).phase = .writing data readNs)
    (stepped :
      job.stepWriting move (state.workers move.worker) data readNs state =
        some next) :
    job.Stepped state move.worker next := by
  unfold stepWriting at stepped
  split at stepped
  · cases stepped
  · rename_i chunk found
    split at stepped
    · cases stepped
      exact .wrote writing found _ _
    · cases stepped
      exact .writeFailed writing found _

theorem step_stepped
    (stepped : job.step state move = some next) :
    move.worker < job.bufCaps.length ∧ job.Stepped state move.worker next := by
  unfold step at stepped
  split at stepped
  · rename_i employed
    refine ⟨employed, ?_⟩
    dsimp only at stepped
    split at stepped
    · rename_i reading
      exact stepReading_stepped reading stepped
    · rename_i data readNs writing
      exact stepWriting_stepped writing stepped
    · rename_i failed
      split at stepped
      · rename_i taken
        cases stepped
        exact .beaten failed taken
      · rename_i first
        cases stepped
        exact .claimed failed (Bool.eq_false_iff.mpr first)
    · rename_i reporting
      cases stepped
      exact .reported reporting
    · cases stepped
  · cases stepped

/-- What every step keeps holds after every schedule. -/
theorem run_invariant
    (invariant : CopyState → Prop)
    (kept :
      ∀ {state next : CopyState} {wid : Nat},
        wid < job.bufCaps.length →
        job.Stepped state wid next → invariant state → invariant next)
    {moves : List CopyMove}
    (ran : job.run moves state = some next)
    (holds : invariant state) :
    invariant next := by
  induction moves generalizing state with
  | nil =>
      cases ran
      exact holds
  | cons move moves inductionHypothesis =>
      obtain ⟨middle, stepped, rest⟩ := Option.bind_eq_some_iff.mp ran
      obtain ⟨employed, stepped⟩ := step_stepped stepped
      exact inductionHypothesis rest (kept employed stepped holds)

end CopyJob

end NvmeofRaft
