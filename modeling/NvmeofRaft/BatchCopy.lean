import NvmeofRaft.CopyOutcome

namespace NvmeofRaft

/-!
# The block copy service

`BlockCopyServer::handle_write_pba_batch` (`raft_blockcopy_server.cpp`): the
checks of a batch, the buffers the workers borrow, the workers, and the answer.
A descriptor stands for the volume it was opened on, so that two of them may
name one volume.  An offset above the range of `off_t` is one more reason for a
call to fail.
-/

/-- `INT_MAX`. -/
def intMax : Nat :=
  2 ^ 31 - 1

/-- `static_cast<int>`. -/
def castInt (count : Nat) : Int :=
  Int.bmod count (2 ^ 32)

structure WritePbaBatchReq where
  pbaSrcs : List Nat
  pbaDsts : List Nat
  nbytes : List Nat
  blockSize : Nat := 0
  srcDev : Int := 0
  dstDev : Int := 0
  deriving Repr, DecidableEq

structure WritePbaBatchRsp where
  error : String := ""
  copyNanos : Nat := 0
  readNanos : Nat := 0
  writeNanos : Nat := 0
  deriving Repr, DecidableEq

/-- The service: its volumes, its workers, its free buffers, its statistics. -/
structure BlockCopyServer where
  fds : List Nat
  copyWorkers : Int
  /-- `AlignedBufPool::free_`: capacities, the back of the vector first. -/
  bufPool : List Nat := []
  readNs : Nat := 0
  writeNs : Nat := 0
  deriving Repr, DecidableEq

/-- `AlignedBufPool::acquire`; `allocated` is what `posix_memalign` does. -/
def acquire
    (pool : List Nat)
    (size : Nat)
    (allocated : Bool) :
    Option Nat × List Nat :=
  let fresh := if allocated then some (alignUp size pageSize) else none
  match pool with
  | [] => (fresh, [])
  | cap :: rest => if size ≤ cap then (some cap, rest) else (fresh, rest)

/-- `AlignedBufPool::release`, for the buffers of all workers in turn. -/
def releaseAll
    (pool bufCaps : List Nat) :
    List Nat :=
  bufCaps.foldl (fun pool cap => cap :: pool) pool

/-- The buffers borrowed so far. -/
structure Lease where
  bufCaps : List Nat
  pool : List Nat
  allocFailed : Bool
  deriving Repr, DecidableEq

/-- The loop that borrows the buffers of the first workers. -/
def lease
    (pool : List Nat)
    (size : Nat)
    (allocates : Nat → Bool) :
    Nat → Lease
  | 0 => ⟨[], pool, false⟩
  | wid + 1 =>
      let earlier := lease pool size allocates wid
      if earlier.allocFailed then
        earlier
      else
        match acquire earlier.pool size (allocates wid) with
        | (none, pool) => ⟨earlier.bufCaps, pool, true⟩
        | (some cap, pool) => ⟨earlier.bufCaps ++ [cap], pool, false⟩

/-- The buffer that is acquired is large enough. -/
theorem acquire_large
    {pool rest : List Nat}
    {size cap : Nat}
    {allocated : Bool}
    (acquired : acquire pool size allocated = (some cap, rest)) :
    size ≤ cap := by
  have fresh :
      ∀ {cap}, (if allocated then some (alignUp size pageSize) else none) =
        some cap → size ≤ cap := by
    intro cap made
    split at made
    · cases made
      exact le_alignUp _ (by decide)
    · cases made
  unfold acquire at acquired
  dsimp only at acquired
  split at acquired
  · exact fresh (congrArg Prod.fst acquired)
  · split at acquired
    · rename_i large
      cases acquired
      exact large
    · exact fresh (congrArg Prod.fst acquired)

/-- Every worker has a buffer, and it holds the largest chunk. -/
theorem lease_granted
    {pool : List Nat}
    {size workers : Nat}
    {allocates : Nat → Bool}
    (granted : (lease pool size allocates workers).allocFailed = false) :
    (lease pool size allocates workers).bufCaps.length = workers ∧
      ∀ cap ∈ (lease pool size allocates workers).bufCaps, size ≤ cap := by
  induction workers with
  | zero =>
      exact ⟨rfl, nofun⟩
  | succ wid inductionHypothesis =>
      unfold lease at granted ⊢
      dsimp only at granted ⊢
      split
      · rename_i failed
        rw [if_pos failed, failed] at granted
        cases granted
      · rename_i going
        obtain ⟨each, large⟩ :=
          inductionHypothesis (Bool.eq_false_iff.mpr going)
        rw [if_neg going] at granted
        split
        · rename_i acquired
          rw [acquired] at granted
          cases granted
        · rename_i cap rest acquired
          dsimp only
          rw [List.length_append, each]
          refine ⟨rfl, ?_⟩
          intro other member
          rcases List.mem_append.mp member with earlier | now
          · exact large other earlier
          · cases List.mem_singleton.mp now
            exact acquire_large acquired

namespace WritePbaBatchReq

/-- `sizes`, once `block_size` stands in for an absent list. -/
def sizes (req : WritePbaBatchReq) : List Nat :=
  if req.nbytes = [] then
    List.replicate req.pbaSrcs.length req.blockSize
  else
    req.nbytes

/-- `max_size`. -/
def maxSize (req : WritePbaBatchReq) : Nat :=
  req.sizes.foldl max 0

/-- The chunks, by the index the workers share. -/
def chunks (req : WritePbaBatchReq) : List PbaChunk :=
  List.zipWith (fun src rest => ⟨src, rest.1, rest.2⟩) req.pbaSrcs
    (req.pbaDsts.zip req.sizes)

theorem le_foldl_max
    (sizes : List Nat)
    (largest : Nat) :
    largest ≤ sizes.foldl max largest ∧
      ∀ size ∈ sizes, size ≤ sizes.foldl max largest := by
  induction sizes generalizing largest with
  | nil =>
      exact ⟨le_refl _, nofun⟩
  | cons size sizes inductionHypothesis =>
      obtain ⟨above, each⟩ := inductionHypothesis (max largest size)
      rw [List.foldl_cons]
      refine ⟨(le_max_left _ _).trans above, ?_⟩
      intro other member
      rcases List.mem_cons.mp member with rfl | later
      · exact (le_max_right _ _).trans above
      · exact each other later

/-- No chunk is larger than the largest. -/
theorem nbytes_le_maxSize
    (req : WritePbaBatchReq) :
    ∀ chunk ∈ req.chunks, chunk.nbytes ≤ req.maxSize := by
  intro chunk member
  obtain ⟨index, inside, rfl⟩ := List.mem_iff_getElem.mp member
  apply (le_foldl_max req.sizes 0).2
  simp only [chunks, List.getElem_zipWith, List.getElem_zip]
  exact List.getElem_mem _

end WritePbaBatchReq

namespace BlockCopyServer

/-- `get_fd`. -/
def getFd
    (server : BlockCopyServer)
    (devIdx : Int) :
    Option Nat :=
  if devIdx < 0 then none else server.fds[devIdx.toNat]?

/-- The text of the first check that fails; `none` when the workers can go. -/
def refuse
    (server : BlockCopyServer)
    (req : WritePbaBatchReq) :
    Option String :=
  if req.pbaSrcs.length ≠ req.pbaDsts.length then
    some "PbaSrcs and PbaDsts length mismatch"
  else if server.getFd req.srcDev = none ∨ server.getFd req.dstDev = none then
    some "device index out of range"
  else if req.nbytes = [] ∧ req.blockSize = 0 then
    some "WritePBABatch: neither Nbytes nor BlockSize provided"
  else if req.nbytes ≠ [] ∧ req.nbytes.length ≠ req.pbaSrcs.length then
    some ("Nbytes length " ++ toString req.nbytes.length ++
      " != PbaSrcs length " ++ toString req.pbaSrcs.length)
  else if req.maxSize = 0 then
    some "WritePBABatch: all entries have zero size"
  else if intMax < req.maxSize then
    some ("WritePBABatch: chunk size " ++ toString req.maxSize ++
      " exceeds INT_MAX (lower MaxPBACopyChunkBytes)")
  else
    none

/-- `w`: how many workers copy the batch. -/
def workerCount
    (server : BlockCopyServer)
    (count : Nat) :
    Nat :=
  (max 1 (min server.copyWorkers (castInt count))).toNat

/-- The buffers of a batch. -/
def leased
    (server : BlockCopyServer)
    (req : WritePbaBatchReq)
    (allocates : Nat → Bool) :
    Lease :=
  lease server.bufPool req.maxSize allocates
    (server.workerCount req.pbaSrcs.length)

theorem workerCount_pos
    (server : BlockCopyServer)
    (count : Nat) :
    0 < server.workerCount count := by
  unfold workerCount
  omega

/-- The job of the workers, when both devices are open and all have a buffer. -/
def job
    (server : BlockCopyServer)
    (req : WritePbaBatchReq)
    (allocates : Nat → Bool)
    (srcDev dstDev : Nat)
    (granted : (server.leased req allocates).allocFailed = false) :
    CopyJob where
  srcDev := srcDev
  dstDev := dstDev
  chunks := req.chunks
  bufCaps := (server.leased req allocates).bufCaps
  staffed := by
    rw [leased, (lease_granted granted).1]
    exact server.workerCount_pos _
  fits := by
    intro cap member chunk held
    exact (req.nbytes_le_maxSize chunk held).trans
      ((lease_granted granted).2 cap member)

end BlockCopyServer

/-- What the handler comes to before any worker starts. -/
inductive Begun where
  | answered (rsp : WritePbaBatchRsp) (pool : List Nat)
  | started (job : CopyJob) (pool : List Nat)

/-- What the handler leaves. -/
structure BatchResult where
  rsp : WritePbaBatchRsp
  server : BlockCopyServer
  devices : Devices
  transfers : List Transfer

namespace BlockCopyServer

/-- The handler up to the start of the threads. -/
def begin
    (server : BlockCopyServer)
    (req : WritePbaBatchReq)
    (allocates : Nat → Bool) :
    Begun :=
  if req.pbaSrcs = [] then
    .answered {} server.bufPool
  else
    match server.refuse req with
    | some error => .answered { error } server.bufPool
    | none =>
        match server.getFd req.srcDev, server.getFd req.dstDev with
        | some srcDev, some dstDev =>
            if granted :
                (server.leased req allocates).allocFailed = false then
              .started (server.job req allocates srcDev dstDev granted)
                (server.leased req allocates).pool
            else
              .answered { error := "posix_memalign for worker buffer failed" }
                (releaseAll (server.leased req allocates).pool
                  (server.leased req allocates).bufCaps)
        | _, _ => .answered { error := "device index out of range" } server.bufPool

/-- The handler once the threads are joined. -/
def finish
    (server : BlockCopyServer)
    (job : CopyJob)
    (pool : List Nat)
    (state : CopyState) :
    BatchResult :=
  let released := { server with bufPool := releaseAll pool job.bufCaps }
  if state.hasError then
    { rsp := { error := state.firstError }
      server := released
      devices := state.devices
      transfers := state.transfers }
  else
    { rsp :=
        { copyNanos := state.totalReadNs + state.totalWriteNs
          readNanos := state.totalReadNs
          writeNanos := state.totalWriteNs }
      server :=
        { released with
          readNs := released.readNs + state.totalReadNs
          writeNs := released.writeNs + state.totalWriteNs }
      devices := state.devices
      transfers := state.transfers }

/-- `handle_write_pba_batch`, on a schedule of its threads. -/
def handleWritePbaBatch
    (server : BlockCopyServer)
    (req : WritePbaBatchReq)
    (allocates : Nat → Bool)
    (devices : Devices)
    (moves : List CopyMove) :
    Option BatchResult :=
  match server.begin req allocates with
  | .answered rsp pool =>
      if moves = [] then
        some ⟨rsp, { server with bufPool := pool }, devices, []⟩
      else
        none
  | .started job pool =>
      (job.run moves (job.start devices)).bind fun state =>
        if job.Joined state then some (server.finish job pool state) else none

end BlockCopyServer

/--
As many sources as destinations, sizes of one byte to `INT_MAX`, in a list or
as one block size, and destinations that are apart, on the volumes that the
server has open, from each other and from the sources.
-/
structure WritePbaBatchReq.Separate
    (req : WritePbaBatchReq)
    (server : BlockCopyServer) : Prop where
  filled : req.pbaSrcs ≠ []
  paired : req.pbaSrcs.length = req.pbaDsts.length
  sized :
    (req.nbytes.length = req.pbaSrcs.length ∧
        ∀ size ∈ req.nbytes, 1 ≤ size ∧ size ≤ intMax) ∨
      (req.nbytes = [] ∧ 1 ≤ req.blockSize ∧ req.blockSize ≤ intMax)
  apart :
    ∀ srcDev dstDev,
      server.getFd req.srcDev = some srcDev →
      server.getFd req.dstDev = some dstDev →
      ChunksApart srcDev dstDev req.chunks

namespace WritePbaBatchReq

variable {req : WritePbaBatchReq} {server : BlockCopyServer}

theorem foldl_max_le
    {sizes : List Nat}
    {largest bound : Nat}
    (start : largest ≤ bound)
    (each : ∀ size ∈ sizes, size ≤ bound) :
    sizes.foldl max largest ≤ bound := by
  induction sizes generalizing largest with
  | nil =>
      exact start
  | cons size sizes inductionHypothesis =>
      rw [List.foldl_cons]
      apply inductionHypothesis
      · exact max_le start (each size List.mem_cons_self)
      · intro other later
        exact each other (List.mem_cons_of_mem _ later)

/-- As many sizes as sources, all in range. -/
theorem Separate.sizes
    (separate : req.Separate server) :
    req.sizes.length = req.pbaSrcs.length ∧
      ∀ size ∈ req.sizes, 1 ≤ size ∧ size ≤ intMax := by
  have some := List.length_pos_iff.mpr separate.filled
  unfold WritePbaBatchReq.sizes
  rcases separate.sized with ⟨paired, each⟩ | ⟨absent, positive, small⟩
  · have listed : req.nbytes ≠ [] := by
      apply List.ne_nil_of_length_pos
      omega
    rw [if_neg listed]
    exact ⟨paired, each⟩
  · rw [if_pos absent]
    refine ⟨List.length_replicate, ?_⟩
    intro size member
    rw [List.eq_of_mem_replicate member]
    exact ⟨positive, small⟩

theorem Separate.maxSize
    (separate : req.Separate server) :
    req.maxSize ≠ 0 ∧ req.maxSize ≤ intMax := by
  obtain ⟨paired, each⟩ := separate.sizes
  have some := List.length_pos_iff.mpr separate.filled
  constructor
  · have inside : 0 < req.sizes.length := by omega
    have first := List.getElem_mem inside
    have positive := (each _ first).1
    have largest := (le_foldl_max req.sizes 0).2 _ first
    unfold WritePbaBatchReq.maxSize
    omega
  · apply foldl_max_le (Nat.zero_le _)
    intro size member
    exact (each size member).2

end WritePbaBatchReq

namespace BlockCopyServer

variable
  {server : BlockCopyServer}
  {req : WritePbaBatchReq}
  {allocates : Nat → Bool}

/-- Both devices are open and there is a buffer for every worker. -/
def Equipped
    (server : BlockCopyServer)
    (req : WritePbaBatchReq)
    (allocates : Nat → Bool) : Prop :=
  (server.getFd req.srcDev).isSome ∧ (server.getFd req.dstDev).isSome ∧
    (server.leased req allocates).allocFailed = false

/-- Only a missing device stops such a batch at the checks. -/
theorem refuse_separate
    (separate : req.Separate server) :
    server.refuse req =
      if server.getFd req.srcDev = none ∨ server.getFd req.dstDev = none then
        some "device index out of range"
      else
        none := by
  obtain ⟨positive, small⟩ := separate.maxSize
  have some := List.length_pos_iff.mpr separate.filled
  have given : ¬ (req.nbytes = [] ∧ req.blockSize = 0) := by
    rintro ⟨absent, zero⟩
    rcases separate.sized with ⟨paired, -⟩ | ⟨-, least, -⟩
    · rw [absent] at paired
      exact some.ne paired
    · omega
  have matching :
      ¬ (req.nbytes ≠ [] ∧ req.nbytes.length ≠ req.pbaSrcs.length) := by
    rintro ⟨listed, short⟩
    rcases separate.sized with ⟨paired, -⟩ | ⟨absent, -⟩
    · exact short paired
    · exact listed absent
  unfold refuse
  rw [if_neg (not_not.mpr separate.paired), if_neg given, if_neg matching,
    if_neg positive, if_neg (Nat.not_lt.mpr small)]

/-- With devices and buffers the batch is started. -/
theorem begin_equipped
    (separate : req.Separate server)
    (equipped : server.Equipped req allocates) :
    ∃ srcDev dstDev granted,
      server.getFd req.srcDev = some srcDev ∧
        server.getFd req.dstDev = some dstDev ∧
          server.begin req allocates =
            .started (server.job req allocates srcDev dstDev granted)
              (server.leased req allocates).pool := by
  obtain ⟨srcOpen, dstOpen, granted⟩ := equipped
  obtain ⟨srcDev, src⟩ := Option.isSome_iff_exists.mp srcOpen
  obtain ⟨dstDev, dst⟩ := Option.isSome_iff_exists.mp dstOpen
  refine ⟨srcDev, dstDev, granted, src, dst, ?_⟩
  rw [begin, if_neg separate.filled, refuse_separate separate]
  simp only [src, dst, reduceCtorEq, or_self, ↓reduceIte, granted, ↓reduceDIte]

/-- Without devices or buffers it is answered with an error. -/
theorem begin_unequipped
    (separate : req.Separate server)
    (unequipped : ¬ server.Equipped req allocates) :
    ∃ rsp pool,
      server.begin req allocates = .answered rsp pool ∧ rsp.error ≠ "" := by
  rw [begin, if_neg separate.filled, refuse_separate separate]
  by_cases missing :
      server.getFd req.srcDev = none ∨ server.getFd req.dstDev = none
  · rw [if_pos missing]
    exact ⟨_, _, rfl, by decide⟩
  · rw [if_neg missing]
    push Not at missing
    obtain ⟨srcDev, src⟩ := Option.ne_none_iff_exists'.mp missing.1
    obtain ⟨dstDev, dst⟩ := Option.ne_none_iff_exists'.mp missing.2
    simp only [src, dst]
    split
    · rename_i granted
      refine absurd ⟨?_, ?_, granted⟩ unequipped
      · rw [src, Option.isSome_some]
      · rw [dst, Option.isSome_some]
    · exact ⟨_, _, rfl, by decide⟩

/-- Every chunk was read once and written once, and the devices show it. -/
structure Copied
    (server : BlockCopyServer)
    (req : WritePbaBatchReq)
    (devices : Devices)
    (result : BatchResult) : Prop where
  once :
    ∀ index < req.chunks.length, ∀ direction,
      result.transfers.count ⟨index, direction, true⟩ = 1
  only :
    ∀ transfer ∈ result.transfers,
      transfer.full = true ∧ transfer.entry < req.chunks.length
  image :
    ∃ srcDev dstDev,
      server.getFd req.srcDev = some srcDev ∧
        server.getFd req.dstDev = some dstDev ∧
          result.devices = devices.writePbaBatch srcDev dstDev req.chunks

@[simp] theorem finish_devices
    (job : CopyJob)
    (pool : List Nat)
    (state : CopyState) :
    (server.finish job pool state).devices = state.devices := by
  unfold finish
  split <;> rfl

@[simp] theorem finish_transfers
    (job : CopyJob)
    (pool : List Nat)
    (state : CopyState) :
    (server.finish job pool state).transfers = state.transfers := by
  unfold finish
  split <;> rfl

/-- Once the workers are started, the answer is theirs. -/
theorem of_started
    {job : CopyJob}
    {pool : List Nat}
    {devices : Devices}
    {moves : List CopyMove}
    {result : BatchResult}
    (began : server.begin req allocates = .started job pool)
    (answered :
      server.handleWritePbaBatch req allocates devices moves = some result) :
    ∃ state,
      job.run moves (job.start devices) = some state ∧ job.Joined state ∧
        result = server.finish job pool state := by
  simp only [handleWritePbaBatch, began] at answered
  obtain ⟨state, ran, last⟩ := Option.bind_eq_some_iff.mp answered
  split at last
  · rename_i joined
    cases last
    exact ⟨state, ran, joined, rfl⟩
  · cases last

/-- A handler that starts no worker answers at once. -/
theorem of_answered
    {rsp : WritePbaBatchRsp}
    {pool : List Nat}
    {devices : Devices}
    {moves : List CopyMove}
    {result : BatchResult}
    (began : server.begin req allocates = .answered rsp pool)
    (answered :
      server.handleWritePbaBatch req allocates devices moves = some result) :
    result.rsp = rsp := by
  simp only [handleWritePbaBatch, began] at answered
  split at answered
  · cases answered
    rfl
  · cases answered

/-- What full calls leave when the threads are joined. -/
theorem copied_of_full
    {srcDev dstDev : Nat}
    {granted : (server.leased req allocates).allocFailed = false}
    {devices : Devices}
    {moves : List CopyMove}
    {state : CopyState}
    (separate : req.Separate server)
    (src : server.getFd req.srcDev = some srcDev)
    (dst : server.getFd req.dstDev = some dstDev)
    (ran :
      (server.job req allocates srcDev dstDev granted).run moves
          ((server.job req allocates srcDev dstDev granted).start devices) =
        some state)
    (joined : (server.job req allocates srcDev dstDev granted).Joined state)
    (full : ∀ transfer ∈ state.transfers, transfer.full = true)
    (pool : List Nat) :
    server.Copied req devices
      (server.finish (server.job req allocates srcDev dstDev granted) pool
        state) := by
  have clean := CopyJob.run_clean ran (separate.apart _ _ src dst) full
  obtain ⟨once, through⟩ := clean.joined joined
  refine ⟨?_, ?_, srcDev, dstDev, src, dst, ?_⟩
  · rw [finish_transfers]
    exact once
  · rw [finish_transfers]
    intro transfer called
    exact ⟨full transfer called, clean.inside transfer called⟩
  · rw [finish_devices]
    exact clean.settled.eq_writePbaBatch (separate.apart _ _ src dst)
      through

/-- The answer of a schedule of the workers. -/
theorem finish_error
    {job : CopyJob}
    {devices : Devices}
    {moves : List CopyMove}
    {state : CopyState}
    (apart : ChunksApart job.srcDev job.dstDev job.chunks)
    (ran : job.run moves (job.start devices) = some state)
    (joined : job.Joined state)
    (pool : List Nat) :
    (server.finish job pool state).rsp.error = "" ↔
      ∀ transfer ∈ state.transfers, transfer.full = true := by
  constructor
  · intro silent transfer called
    by_contra short
    have blamed :=
      CopyJob.run_invariant job.Blamed CopyJob.Stepped.blamed ran
        (job.start_blamed devices)
    obtain ⟨raised, text⟩ :=
      blamed.joined joined ⟨transfer, called, Bool.eq_false_iff.mpr short⟩
    rw [finish, if_pos raised] at silent
    exact text silent
  · intro full
    have clean := CopyJob.run_clean ran apart full
    simp only [finish, clean.quiet, Bool.false_eq_true, ↓reduceIte]

/--
The workers of a batch copy what a loop over the chunks copies: for every
schedule, the answer is without an error exactly when the devices are open, the
buffers are there and every call made has transferred its full length, and then
every chunk was copied once.  Every schedule comes to an answer.
-/
theorem batch_copy_is_sequential
    (server : BlockCopyServer)
    {req : WritePbaBatchReq}
    (separate : req.Separate server)
    (allocates : Nat → Bool)
    (devices : Devices) :
    (∀ moves result,
      server.handleWritePbaBatch req allocates devices moves = some result →
        (result.rsp.error = "" ↔
          server.Equipped req allocates ∧
            ∀ transfer ∈ result.transfers, transfer.full = true) ∧
          (result.rsp.error = "" → server.Copied req devices result)) ∧
      ∀ job pool, server.begin req allocates = .started job pool →
        ∀ moves state, job.run moves (job.start devices) = some state →
          moves.length ≤ job.bufCaps.length * (2 * job.chunks.length + 3) ∧
            ∃ more result,
              server.handleWritePbaBatch req allocates devices (moves ++ more) =
                some result := by
  refine ⟨?_, ?_⟩
  · intro moves result answered
    rcases em (server.Equipped req allocates) with equipped | unequipped
    · obtain ⟨srcDev, dstDev, granted, src, dst, began⟩ :=
        begin_equipped separate equipped
      obtain ⟨state, ran, joined, rfl⟩ := of_started began answered
      rw [finish_error (separate.apart _ _ src dst) ran joined,
        finish_transfers]
      constructor
      · exact ⟨fun full => ⟨equipped, full⟩, fun both => both.2⟩
      · intro full
        exact copied_of_full separate src dst ran joined full _
    · obtain ⟨rsp, pool, began, text⟩ := begin_unequipped separate unequipped
      rw [of_answered began answered]
      constructor
      · exact ⟨fun silent => absurd silent text,
          fun both => absurd both.1 unequipped⟩
      · intro silent
        exact absurd silent text
  · intro job pool began moves state ran
    refine ⟨?_, ?_⟩
    · have length := CopyJob.run_length ran
      have rank := job.totalRank_start devices
      omega
    · have inHand :=
        CopyJob.run_invariant job.InHand (fun _ => CopyJob.Stepped.inHand) ran
          (job.start_inHand devices)
      obtain ⟨more, final, rest, joined⟩ := CopyJob.exists_joined inHand
      refine ⟨more, server.finish job pool final, ?_⟩
      simp only [handleWritePbaBatch, began, CopyJob.run_append ran, rest,
        Option.bind_some, if_pos joined]

end BlockCopyServer

/-- The descriptors of two volumes, and as many workers. -/
def twoVolumes : BlockCopyServer where
  fds := [0, 1]
  copyWorkers := 2

/--
Two chunks from the first volume to the second; the first one goes to the
offset from which the second one comes.
-/
def twoChunks : WritePbaBatchReq where
  pbaSrcs := [0, 8]
  pbaDsts := [8, 32]
  nbytes := [4, 2]
  dstDev := 1

/-- The second worker is done with its chunk before the first one writes. -/
def crossedMoves : List CopyMove :=
  [⟨0, some 4, 5⟩, ⟨1, some 2, 3⟩, ⟨1, some 2, 3⟩, ⟨1, none, 0⟩,
    ⟨0, some 4, 5⟩, ⟨0, none, 0⟩]

def countedBytes : Devices :=
  fun device offset => UInt8.ofNat (device + offset)

theorem twoChunks_separate : twoChunks.Separate twoVolumes where
  filled := by decide
  paired := rfl
  sized := .inl (by decide)
  apart := by
    rintro srcDev dstDev ⟨⟩ ⟨⟩
    exact ⟨by decide, by decide⟩

/-- Two workers that overtake each other. -/
theorem crossed_workers_copy :
    ∃ result,
      twoVolumes.handleWritePbaBatch twoChunks (fun _ => true) countedBytes
          crossedMoves = some result ∧
        result.rsp.error = "" ∧
          twoVolumes.Copied twoChunks countedBytes result := by
  have answers :
      (twoVolumes.handleWritePbaBatch twoChunks (fun _ => true) countedBytes
        crossedMoves).isSome = true := by
    decide
  obtain ⟨result, answered⟩ := Option.isSome_iff_exists.mp answers
  have silent : result.rsp.error = "" := by
    have text :
        (twoVolumes.handleWritePbaBatch twoChunks (fun _ => true) countedBytes
          crossedMoves).map (fun result => result.rsp.error) = some "" := by
      decide
    rw [answered] at text
    exact Option.some_inj.mp text
  have copied :=
    (BlockCopyServer.batch_copy_is_sequential twoVolumes twoChunks_separate
      (fun _ => true) countedBytes).1 crossedMoves result answered
  exact ⟨result, answered, silent, copied.2 silent⟩

end NvmeofRaft
