import NvmeofRaft.CopySchedules

namespace NvmeofRaft

/-!
# What a batch copy leaves

When no two chunks of a batch have a byte of their destinations in common, and
no destination has a byte of a source, which chunks between two volumes cannot
have, the workers of `handle_write_pba_batch` leave what copying the chunks one
after another leaves, whatever the schedule, as long as every call transfers
its full length.
-/

/-- Two byte ranges without a common byte. -/
def Apart (first firstBytes second secondBytes : Nat) : Prop :=
  first + firstBytes ≤ second ∨ second + secondBytes ≤ first

instance (first firstBytes second secondBytes : Nat) :
    Decidable (Apart first firstBytes second secondBytes) :=
  inferInstanceAs (Decidable (_ ∨ _))

/--
The destinations of the chunks are apart, also from the sources when these are
on the same volume.
-/
structure ChunksApart
    (srcDev dstDev : Nat)
    (chunks : List PbaChunk) : Prop where
  targets :
    chunks.Pairwise fun first second =>
      Apart first.dst first.nbytes second.dst second.nbytes
  sources :
    srcDev = dstDev →
    ∀ first ∈ chunks, ∀ second ∈ chunks,
      Apart first.dst first.nbytes second.src second.nbytes

/-- The cells of the devices: a device and an offset. -/
def Devices.cells (devices : Devices) : Nat × Nat → UInt8 :=
  fun cell => devices cell.1 cell.2

theorem Devices.eq_of_cells
    {first second : Devices}
    (same : first.cells = second.cells) :
    first = second := by
  funext device offset
  exact congrFun same (device, offset)

section

variable
  (srcDev dstDev : Nat)
  (chunks : List PbaChunk)

/-- The cells a chunk is copied to. -/
def copyTarget (index : Nat) : Set (Nat × Nat) :=
  {cell | ∃ chunk, chunks[index]? = some chunk ∧ cell.1 = dstDev ∧
    chunk.dst ≤ cell.2 ∧ cell.2 < chunk.dst + chunk.nbytes}

/-- What a chunk is copied from, by where it goes. -/
def copyValue
    (before : Devices)
    (index : Nat)
    (cell : Nat × Nat) :
    UInt8 :=
  match chunks[index]? with
  | none => 0
  | some chunk => before srcDev (chunk.src + (cell.2 - chunk.dst))

/-- The chunks that are done are copied, and nothing else is changed. -/
abbrev CopySettled
    (done : Set Nat)
    (before after : Devices) : Prop :=
  Settled (copyTarget dstDev chunks) (copyValue srcDev chunks before) done
    before.cells after.cells

end

section

variable
  {srcDev dstDev index : Nat}
  {chunks : List PbaChunk}
  {chunk : PbaChunk}
  {done : Set Nat}
  {before after : Devices}

theorem mem_copyTarget
    (found : chunks[index]? = some chunk)
    {cell : Nat × Nat} :
    cell ∈ copyTarget dstDev chunks index ↔
      cell.1 = dstDev ∧
        chunk.dst ≤ cell.2 ∧ cell.2 < chunk.dst + chunk.nbytes := by
  constructor
  · rintro ⟨other, there, inside⟩
    rw [found] at there
    cases there
    exact inside
  · intro inside
    exact ⟨chunk, found, inside⟩

/-- Chunks at different places have their destinations apart. -/
theorem ChunksApart.target
    (apart : ChunksApart srcDev dstDev chunks)
    {other : Nat}
    (different : other ≠ index) :
    ∀ cell ∈ copyTarget dstDev chunks other,
      cell ∉ copyTarget dstDev chunks index := by
  rintro cell ⟨first, foundFirst, -, lowFirst, highFirst⟩
    ⟨second, foundSecond, -, lowSecond, highSecond⟩
  obtain ⟨inFirst, rfl⟩ := List.getElem?_eq_some_iff.mp foundFirst
  obtain ⟨inSecond, rfl⟩ := List.getElem?_eq_some_iff.mp foundSecond
  have pairs := List.pairwise_iff_getElem.mp apart.targets
  rcases Nat.lt_or_gt_of_ne different with lower | higher
  · rcases pairs _ _ inFirst inSecond lower with left | right <;> omega
  · rcases pairs _ _ inSecond inFirst higher with left | right <;> omega

/-- The source of a chunk is never written. -/
theorem CopySettled.source
    (settled : CopySettled srcDev dstDev chunks done before after)
    (apart : ChunksApart srcDev dstDev chunks)
    (found : chunks[index]? = some chunk) :
    (after srcDev).read chunk.src chunk.nbytes =
      (before srcDev).read chunk.src chunk.nbytes := by
  apply ByteImage.read_congr
  intro position low high
  apply settled.untouched (srcDev, position)
  rintro other ⟨target, there, sameVolume, lowTarget, highTarget⟩
  have clear := apart.sources sameVolume target (List.mem_of_getElem? there)
    chunk (List.mem_of_getElem? found)
  rcases clear with left | right <;> dsimp only at lowTarget highTarget <;>
    omega

/-- One more chunk lands. -/
theorem CopySettled.land
    {done' : Set Nat}
    (settled : CopySettled srcDev dstDev chunks done before after)
    (apart : ChunksApart srcDev dstDev chunks)
    (found : chunks[index]? = some chunk)
    (grown : ∀ task, task ∈ done' ↔ task ∈ done ∨ task = index) :
    CopySettled srcDev dstDev chunks done' before
      (Function.update after dstDev
        ((after dstDev).write chunk.dst
          ((before srcDev).read chunk.src chunk.nbytes))) := by
  refine settled.step (fun _ _ different => apart.target different) grown ?_ ?_
  · intro cell inside
    obtain ⟨device, low, high⟩ := (mem_copyTarget found).mp inside
    rw [Devices.cells, device, Function.update_self, copyValue, found,
      ByteImage.write, ByteImage.length_read, if_pos ⟨low, high⟩]
    dsimp only
    rw [List.getD_eq_getElem?_getD, ByteImage.read, List.getElem?_map,
      List.getElem?_range (by omega)]
    rfl
  · intro cell outside
    rw [mem_copyTarget found] at outside
    rw [Devices.cells, Devices.cells]
    by_cases device : cell.1 = dstDev
    · rw [device, Function.update_self, ByteImage.write,
        ByteImage.length_read, if_neg fun inside => outside ⟨device, inside⟩]
    · rw [Function.update_of_ne device]

/-- The batch in sequence settles every chunk. -/
theorem writePbaBatch_settled
    (apart : ChunksApart srcDev dstDev chunks)
    (before : Devices)
    {count : Nat}
    (inside : count ≤ chunks.length) :
    CopySettled srcDev dstDev chunks {index | index < count} before
      (before.writePbaBatch srcDev dstDev (chunks.take count)) := by
  induction count with
  | zero =>
      exact Settled.start fun _ => Nat.not_lt_zero _
  | succ count inductionHypothesis =>
      have found := List.getElem?_eq_getElem inside
      have settled := inductionHypothesis (by omega)
      have source := settled.source apart found
      have landed :
          CopySettled srcDev dstDev chunks {index | index < count + 1} before
            _ :=
        settled.land apart found fun _ => Nat.lt_succ_iff_lt_or_eq
      rw [← source] at landed
      rw [List.take_succ_eq_append_getElem inside, Devices.writePbaBatch,
        List.foldl_append]
      exact landed

/-- What the chunks leave when all have landed, in whatever order. -/
theorem CopySettled.eq_writePbaBatch
    (settled : CopySettled srcDev dstDev chunks done before after)
    (apart : ChunksApart srcDev dstDev chunks)
    (all : ∀ index < chunks.length, index ∈ done) :
    after = before.writePbaBatch srcDev dstDev chunks := by
  have sequential :
      CopySettled srcDev dstDev chunks _ before
        (before.writePbaBatch srcDev dstDev (chunks.take chunks.length)) :=
    writePbaBatch_settled apart before (Nat.le_refl _)
  rw [List.take_length] at sequential
  apply Devices.eq_of_cells
  apply settled.unique
  apply sequential.of_sameTargets
  rintro task ⟨cell, chunk, found, -⟩
  obtain ⟨inside, -⟩ := List.getElem?_eq_some_iff.mp found
  exact ⟨fun _ => all task inside, fun _ => inside⟩

end

def CopyPhase.holdsData : CopyPhase → Bool
  | .writing _ _ => true
  | _ => false

/-- The calls a worker has made for a chunk of its own. -/
def CopyWorker.made
    (worker : CopyWorker)
    (index : Nat)
    (direction : Direction) :
    Nat :=
  if index < worker.entry ∨
      index = worker.entry ∧ direction = .read ∧
        worker.phase.holdsData = true then
    1
  else
    0

namespace CopyJob

/-- The place of a worker none of whose calls has failed. -/
def Sound
    (job : CopyJob)
    (before : Devices)
    (worker : CopyWorker) : Prop :=
  match worker.phase with
  | .reading => True
  | .writing data _ =>
      ∀ chunk, job.chunks[worker.entry]? = some chunk →
        data = (before job.srcDev).read chunk.src chunk.nbytes
  | .failed | .reporting => False
  | .returned => job.chunks.length ≤ worker.entry

/-- The worker a chunk is dealt to. -/
def owner
    (job : CopyJob)
    (state : CopyState)
    (index : Nat) :
    CopyWorker :=
  state.workers (index % job.bufCaps.length)

/-- The chunks whose workers have gone on. -/
def passed
    (job : CopyJob)
    (state : CopyState) :
    Set Nat :=
  {index | index < (job.owner state index).entry}

/--
As long as no call has failed, every worker strides through its own chunks,
the chunks passed have landed, and each was read and written once.
-/
structure Clean
    (job : CopyJob)
    (before : Devices)
    (state : CopyState) : Prop where
  dealt :
    ∀ wid < job.bufCaps.length,
      (state.workers wid).entry % job.bufCaps.length = wid
  sound :
    ∀ wid < job.bufCaps.length, job.Sound before (state.workers wid)
  settled :
    CopySettled job.srcDev job.dstDev job.chunks (job.passed state) before
      state.devices
  inside : ∀ transfer ∈ state.transfers, transfer.entry < job.chunks.length
  counted :
    ∀ index < job.chunks.length, ∀ direction,
      state.transfers.count ⟨index, direction, true⟩ =
        (job.owner state index).made index direction
  quiet : state.hasError = false

variable
  {job : CopyJob}
  {before : Devices}
  {state next : CopyState}
  {wid index : Nat}

theorem owner_of_ne
    {worker : CopyWorker}
    (workers : next.workers = Function.update state.workers wid worker)
    (different : index % job.bufCaps.length ≠ wid) :
    job.owner next index = job.owner state index := by
  rw [owner, owner, workers, Function.update_of_ne different]

theorem owner_self
    {worker : CopyWorker}
    (workers : next.workers = Function.update state.workers wid worker)
    (own : index % job.bufCaps.length = wid) :
    job.owner next index = worker := by
  rw [owner, workers, own, Function.update_self]

/-- Every worker but the stepping one is as before. -/
theorem forall_of_update
    (holds : Nat → CopyWorker → Prop)
    {worker : CopyWorker}
    (workers : next.workers = Function.update state.workers wid worker)
    (others : ∀ wid < job.bufCaps.length, holds wid (state.workers wid))
    (own : holds wid worker) :
    ∀ wid < job.bufCaps.length, holds wid (next.workers wid) := by
  intro other employed
  by_cases same : other = wid
  · subst same
    rw [workers, Function.update_self]
    exact own
  · rw [workers, Function.update_of_ne same]
    exact others other employed

/-- A step that leaves the loop variable passes no chunk. -/
theorem passed_of_entry
    {worker : CopyWorker}
    (workers : next.workers = Function.update state.workers wid worker)
    (entry : worker.entry = (state.workers wid).entry) :
    job.passed next = job.passed state := by
  ext index
  change index < _ ↔ index < _
  by_cases own : index % job.bufCaps.length = wid
  · rw [owner_self workers own, owner, own, entry]
  · rw [owner_of_ne workers own]

theorem count_called
    (transfers : List Transfer)
    (entry index : Nat)
    (made direction : Direction) :
    (transfers ++ [Transfer.mk entry made true]).count
        ⟨index, direction, true⟩ =
      transfers.count ⟨index, direction, true⟩ +
        if index = entry ∧ direction = made then 1 else 0 := by
  rw [List.count_append, List.count_singleton]
  congr 1
  by_cases same : index = entry ∧ direction = made
  · obtain ⟨rfl, rfl⟩ := same
    rw [if_pos (beq_self_eq_true _), if_pos (And.intro rfl rfl)]
  · rw [if_neg same, if_neg]
    intro equal
    cases beq_iff_eq.mp equal
    exact same ⟨rfl, rfl⟩

section

variable (clean : job.Clean before state)

include clean

/-- What one worker does to its own chunks. -/
theorem Clean.step
    {worker : CopyWorker}
    (workers : next.workers = Function.update state.workers wid worker)
    (dealt : worker.entry % job.bufCaps.length = wid)
    (sound : job.Sound before worker)
    (settled :
      CopySettled job.srcDev job.dstDev job.chunks (job.passed next) before
        next.devices)
    (inside : ∀ transfer ∈ next.transfers, transfer.entry < job.chunks.length)
    (own :
      ∀ index < job.chunks.length, index % job.bufCaps.length = wid →
        ∀ direction,
          next.transfers.count ⟨index, direction, true⟩ =
            worker.made index direction)
    (others :
      ∀ index, index % job.bufCaps.length ≠ wid →
        ∀ direction,
          next.transfers.count ⟨index, direction, true⟩ =
            state.transfers.count ⟨index, direction, true⟩)
    (quiet : next.hasError = false) :
    job.Clean before next where
  dealt :=
    forall_of_update
      (fun wid worker => worker.entry % job.bufCaps.length = wid)
      workers clean.dealt dealt
  sound :=
    forall_of_update (fun _ worker => job.Sound before worker) workers
      clean.sound sound
  settled := settled
  inside := inside
  counted := by
    intro index low direction
    by_cases mine : index % job.bufCaps.length = wid
    · rw [owner_self workers mine]
      exact own index low mine direction
    · rw [owner_of_ne workers mine, others index mine direction]
      exact clean.counted index low direction
  quiet := quiet

/-- A call for a chunk of the batch stays inside the batch. -/
theorem Clean.inside_called
    {transfer : Transfer}
    (low : transfer.entry < job.chunks.length) :
    ∀ called ∈ state.transfers ++ [transfer],
      called.entry < job.chunks.length := by
  intro called member
  rcases List.mem_append.mp member with earlier | now
  · exact clean.inside called earlier
  · cases List.mem_singleton.mp now
    exact low

variable (employed : wid < job.bufCaps.length)

include employed

/-- The loop is over. -/
theorem Clean.exhausted
    (reading : (state.workers wid).phase = .reading)
    (through : job.chunks[(state.workers wid).entry]? = none)
    (workers :
      next.workers =
        Function.update state.workers wid
          { state.workers wid with phase := .returned })
    (devices : next.devices = state.devices)
    (transfers : next.transfers = state.transfers)
    (hasError : next.hasError = state.hasError) :
    job.Clean before next := by
  refine clean.step workers (clean.dealt wid employed) ?_ ?_ ?_ ?_ ?_
    (hasError.trans clean.quiet)
  · exact List.getElem?_eq_none_iff.mp through
  · rw [passed_of_entry workers rfl, devices]
    exact clean.settled
  · rw [transfers]
    exact clean.inside
  · intro index low mine direction
    have counted := clean.counted index low direction
    rw [owner, mine] at counted
    rw [transfers, counted]
    simp [CopyWorker.made, reading, CopyPhase.holdsData]
  · intro _ _ _
    rw [transfers]

/-- A call for the worker's chunk is counted for no chunk of another one. -/
theorem Clean.count_others
    {made : Direction}
    {index : Nat}
    (other : index % job.bufCaps.length ≠ wid)
    (direction : Direction) :
    (state.transfers ++
          [Transfer.mk (state.workers wid).entry made true]).count
        ⟨index, direction, true⟩ =
      state.transfers.count ⟨index, direction, true⟩ := by
  have different : index ≠ (state.workers wid).entry := by
    rintro rfl
    exact other (clean.dealt wid employed)
  rw [count_called, if_neg fun same => different same.1, Nat.add_zero]

/-- A chunk is in the worker's buffer. -/
theorem Clean.read
    (apart : ChunksApart job.srcDev job.dstDev job.chunks)
    (reading : (state.workers wid).phase = .reading)
    {chunk : PbaChunk}
    (found : job.chunks[(state.workers wid).entry]? = some chunk)
    {readNs : Nat}
    (workers :
      next.workers =
        Function.update state.workers wid
          { state.workers wid with
            phase :=
              .writing ((state.devices job.srcDev).read chunk.src chunk.nbytes)
                readNs })
    (devices : next.devices = state.devices)
    (transfers :
      next.transfers =
        state.transfers ++ [⟨(state.workers wid).entry, .read, true⟩])
    (hasError : next.hasError = state.hasError) :
    job.Clean before next := by
  obtain ⟨low, -⟩ := List.getElem?_eq_some_iff.mp found
  refine clean.step workers (clean.dealt wid employed) ?_ ?_ ?_ ?_ ?_
    (hasError.trans clean.quiet)
  · intro other there
    rw [found] at there
    cases there
    exact clean.settled.source apart found
  · rw [passed_of_entry workers rfl, devices]
    exact clean.settled
  · rw [transfers]
    exact clean.inside_called low
  · intro index inside mine direction
    have counted := clean.counted index inside direction
    rw [owner, mine] at counted
    rw [transfers, count_called, counted]
    simp only [CopyWorker.made, reading, CopyPhase.holdsData]
    rcases Nat.lt_trichotomy index (state.workers wid).entry with
      gone | here | later
    · simp [gone, gone.ne]
    · cases direction <;> simp [here]
    · simp [later.ne', later.not_gt]
  · intro index other direction
    rw [transfers]
    exact clean.count_others employed other direction

/-- A chunk has landed, and the worker goes on to its next one. -/
theorem Clean.wrote
    (apart : ChunksApart job.srcDev job.dstDev job.chunks)
    {data : List UInt8}
    {readNs localRead localWrite : Nat}
    (writing : (state.workers wid).phase = .writing data readNs)
    {chunk : PbaChunk}
    (found : job.chunks[(state.workers wid).entry]? = some chunk)
    (workers :
      next.workers =
        Function.update state.workers wid
          { entry := (state.workers wid).entry + job.bufCaps.length
            phase := .reading
            localRead
            localWrite })
    (devices : next.devices = job.land state.devices chunk data)
    (transfers :
      next.transfers =
        state.transfers ++ [⟨(state.workers wid).entry, .write, true⟩])
    (hasError : next.hasError = state.hasError) :
    job.Clean before next := by
  have dealt := clean.dealt wid employed
  have sound := clean.sound wid employed
  obtain ⟨low, -⟩ := List.getElem?_eq_some_iff.mp found
  have held : data = (before job.srcDev).read chunk.src chunk.nbytes := by
    simp only [Sound, writing] at sound
    exact sound chunk found
  have strides :
      ∀ index, index % job.bufCaps.length = wid →
        (index < (state.workers wid).entry + job.bufCaps.length ↔
          index < (state.workers wid).entry ∨
            index = (state.workers wid).entry) := by
    intro index mine
    exact lt_add_stride_iff job.staffed (mine.trans dealt.symm)
  refine clean.step workers ?_ trivial ?_ ?_ ?_ ?_
    (hasError.trans clean.quiet)
  · dsimp only
    rw [Nat.add_mod_right, dealt]
  · rw [devices, held]
    refine clean.settled.land apart found ?_
    intro index
    change index < _ ↔ index < _ ∨ _
    by_cases mine : index % job.bufCaps.length = wid
    · rw [owner_self workers mine, owner, mine]
      exact strides index mine
    · have different : index ≠ (state.workers wid).entry := by
        rintro rfl
        exact mine dealt
      rw [owner_of_ne workers mine, or_iff_left different]
  · rw [transfers]
    exact clean.inside_called low
  · intro index inside mine direction
    have counted := clean.counted index inside direction
    rw [owner, mine] at counted
    rw [transfers, count_called, counted]
    simp only [CopyWorker.made, writing, CopyPhase.holdsData,
      strides index mine]
    rcases Nat.lt_trichotomy index (state.workers wid).entry with
      gone | here | later
    · simp [gone, gone.ne]
    · cases direction <;> simp [here]
    · simp [later.ne', later.not_gt]
  · intro index other direction
    rw [transfers]
    exact clean.count_others employed other direction

end

/-- A step whose call, if it makes one, transfers its full length. -/
theorem Stepped.clean
    (employed : wid < job.bufCaps.length)
    (stepped : job.Stepped state wid next)
    (apart : ChunksApart job.srcDev job.dstDev job.chunks)
    (full : ∀ transfer ∈ next.transfers, transfer.full = true)
    (clean : job.Clean before state) :
    job.Clean before next := by
  have sound := clean.sound wid employed
  cases stepped with
  | exhausted reading through =>
      exact clean.exhausted employed reading through rfl rfl rfl rfl
  | read reading found =>
      exact clean.read employed apart reading found rfl rfl rfl rfl
  | readFailed =>
      have short := full _ (List.mem_append_right _ (List.mem_singleton_self _))
      cases short
  | wrote writing found =>
      exact clean.wrote employed apart writing found rfl rfl rfl rfl
  | writeFailed =>
      have short := full _ (List.mem_append_right _ (List.mem_singleton_self _))
      cases short
  | claimed failed =>
      simp only [Sound, failed] at sound
  | beaten failed =>
      simp only [Sound, failed] at sound
  | reported reporting =>
      simp only [Sound, reporting] at sound

/-- The calls made stay made. -/
theorem Stepped.transfers
    (stepped : job.Stepped state wid next)
    {transfer : Transfer}
    (called : transfer ∈ state.transfers) :
    transfer ∈ next.transfers := by
  cases stepped with
  | read | readFailed | wrote | writeFailed =>
      exact List.mem_append_left _ called
  | exhausted | claimed | beaten | reported =>
      exact called

theorem start_clean
    (job : CopyJob)
    (devices : Devices) :
    job.Clean devices (job.start devices) where
  dealt wid employed := Nat.mod_eq_of_lt employed
  sound _ _ := trivial
  settled :=
    Settled.start fun index => Nat.not_lt.mpr (Nat.mod_le _ _)
  inside transfer called := by cases called
  counted := by
    intro index _ direction
    have below : ¬ index < index % job.bufCaps.length :=
      Nat.not_lt.mpr (Nat.mod_le _ _)
    simp [start, owner, CopyWorker.made, CopyPhase.holdsData, below]
  quiet := rfl

/-- A schedule all of whose calls transfer their full length. -/
theorem run_clean
    {devices : Devices}
    {moves : List CopyMove}
    {final : CopyState}
    (ran : job.run moves (job.start devices) = some final)
    (apart : ChunksApart job.srcDev job.dstDev job.chunks)
    (full : ∀ transfer ∈ final.transfers, transfer.full = true) :
    job.Clean devices final := by
  refine run_invariant
    (fun state =>
      (∀ transfer ∈ state.transfers, transfer.full = true) →
        job.Clean devices state) ?_ ran (fun _ => start_clean job devices) full
  intro state next wid employed stepped clean full
  refine stepped.clean employed apart full (clean ?_)
  intro transfer called
  exact full transfer (stepped.transfers called)

/-- When the threads are joined, every chunk was read once and written once. -/
theorem Clean.joined
    (clean : job.Clean before state)
    (joined : job.Joined state) :
    (∀ index < job.chunks.length, ∀ direction,
      state.transfers.count ⟨index, direction, true⟩ = 1) ∧
      ∀ index < job.chunks.length, index ∈ job.passed state := by
  have through :
      ∀ index < job.chunks.length, index < (job.owner state index).entry := by
    intro index low
    have employed : index % job.bufCaps.length < job.bufCaps.length :=
      Nat.mod_lt _ job.staffed
    have sound := clean.sound _ employed
    simp only [Sound, joined _ employed] at sound
    exact low.trans_le sound
  refine ⟨?_, through⟩
  intro index low direction
  rw [clean.counted index low direction, CopyWorker.made,
    if_pos (.inl (through index low))]

end CopyJob

end NvmeofRaft
