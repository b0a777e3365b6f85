import Mathlib.Algebra.Order.BigOperators.Group.Finset
import NvmeofRaft.ParallelCopy

namespace NvmeofRaft

/-!
# Schedules of a batch copy

No schedule of the workers goes on for ever and none gets stuck: every step
lowers the rank of the worker that makes it, and a worker that has not returned
can step whatever its system call answers.  A call that fails or is short is
noticed: when all workers have returned, `first_error` has a text.
-/

namespace CopyJob

/-- More than the steps a worker still has in front of it. -/
def rank
    (job : CopyJob)
    (worker : CopyWorker) :
    Nat :=
  match worker.phase with
  | .reading => 2 * (job.chunks.length - worker.entry) + 3
  | .writing _ _ => 2 * (job.chunks.length - worker.entry) + 2
  | .failed => 2
  | .reporting => 1
  | .returned => 0

def totalRank
    (job : CopyJob)
    (state : CopyState) :
    Nat :=
  ∑ wid ∈ Finset.range job.bufCaps.length, job.rank (state.workers wid)

variable
  {job : CopyJob}
  {state next : CopyState}
  {wid : Nat}

/-- A step changes one worker, and lowers its rank. -/
theorem Stepped.rank_lt
    (stepped : job.Stepped state wid next) :
    ∃ worker,
      next.workers = Function.update state.workers wid worker ∧
        job.rank worker < job.rank (state.workers wid) := by
  cases stepped with
  | exhausted reading through =>
      refine ⟨_, rfl, ?_⟩
      simp only [rank, reading]
      omega
  | read reading found =>
      refine ⟨_, rfl, ?_⟩
      simp only [rank, reading]
      omega
  | readFailed reading =>
      refine ⟨_, rfl, ?_⟩
      simp only [rank, reading]
      omega
  | wrote writing found =>
      obtain ⟨inside, -⟩ := List.getElem?_eq_some_iff.mp found
      have staffed := job.staffed
      refine ⟨_, rfl, ?_⟩
      simp only [rank, writing]
      omega
  | writeFailed writing found =>
      obtain ⟨inside, -⟩ := List.getElem?_eq_some_iff.mp found
      refine ⟨_, rfl, ?_⟩
      simp only [rank, writing]
      omega
  | claimed failed =>
      refine ⟨_, rfl, ?_⟩
      simp only [rank, failed]
      omega
  | beaten failed =>
      refine ⟨_, rfl, ?_⟩
      simp only [rank, failed]
      omega
  | reported reporting =>
      refine ⟨_, rfl, ?_⟩
      simp only [rank, reporting]
      omega

/-- Every step of a worker brings the end nearer. -/
theorem Stepped.totalRank_lt
    (employed : wid < job.bufCaps.length)
    (stepped : job.Stepped state wid next) :
    job.totalRank next < job.totalRank state := by
  obtain ⟨worker, workers, lower⟩ := stepped.rank_lt
  unfold totalRank
  rw [workers]
  refine Finset.sum_lt_sum ?_ ⟨wid, Finset.mem_range.mpr employed, ?_⟩
  · intro other _
    by_cases same : other = wid
    · subst same
      rw [Function.update_self]
      exact lower.le
    · rw [Function.update_of_ne same]
  · rw [Function.update_self]
    exact lower

/-- A schedule is shorter than the rank it starts from. -/
theorem run_length
    {moves : List CopyMove}
    (ran : job.run moves state = some next) :
    moves.length + job.totalRank next ≤ job.totalRank state := by
  induction moves generalizing state with
  | nil =>
      cases ran
      simp
  | cons move moves inductionHypothesis =>
      obtain ⟨middle, stepped, rest⟩ := Option.bind_eq_some_iff.mp ran
      obtain ⟨employed, stepped⟩ := step_stepped stepped
      have lower := stepped.totalRank_lt employed
      have later := inductionHypothesis rest
      rw [List.length_cons]
      omega

theorem totalRank_start
    (job : CopyJob)
    (devices : Devices) :
    job.totalRank (job.start devices) ≤
      job.bufCaps.length * (2 * job.chunks.length + 3) := by
  have each :
      ∀ wid ∈ Finset.range job.bufCaps.length,
        job.rank ((job.start devices).workers wid) ≤
          2 * job.chunks.length + 3 := by
    intro wid _
    simp only [rank, start]
    omega
  have bound := Finset.sum_le_card_nsmul _ _ _ each
  rw [Finset.card_range] at bound
  exact bound

/-- A worker writes what it has read for a chunk of the batch. -/
def InHand
    (job : CopyJob)
    (state : CopyState) : Prop :=
  ∀ wid data readNs,
    (state.workers wid).phase = .writing data readNs →
      ∃ chunk, job.chunks[(state.workers wid).entry]? = some chunk

theorem Stepped.inHand
    (stepped : job.Stepped state wid next)
    (inHand : job.InHand state) :
    job.InHand next := by
  intro other data readNs writing
  by_cases same : other = wid
  · subst same
    cases stepped with
    | read reading found =>
        simp only [CopyState.setWorker, Function.update_self]
        exact ⟨_, found⟩
    | _ =>
        simp [CopyState.setWorker] at writing
  · obtain ⟨worker, workers, -⟩ := stepped.rank_lt
    rw [workers, Function.update_of_ne same] at writing ⊢
    exact inHand other data readNs writing

theorem start_inHand
    (job : CopyJob)
    (devices : Devices) :
    job.InHand (job.start devices) := by
  intro wid data readNs writing
  cases writing

/-- A worker that has not returned steps, whatever its system call answers. -/
theorem exists_step
    (inHand : job.InHand state)
    (employed : wid < job.bufCaps.length)
    (busy : (state.workers wid).phase ≠ .returned)
    (moved : Option Nat)
    (nanos : Nat) :
    ∃ next, job.step state ⟨wid, moved, nanos⟩ = some next := by
  unfold step
  rw [if_pos employed]
  dsimp only
  split
  · have buffer := List.getElem?_eq_getElem employed
    unfold stepReading
    cases found : job.chunks[(state.workers wid).entry]? with
    | none =>
        exact ⟨_, rfl⟩
    | some chunk =>
        have large :=
          job.fits _ (List.getElem_mem employed) chunk
            (List.mem_of_getElem? found)
        simp only [buffer]
        rw [if_neg (Nat.not_lt.mpr large)]
        split
        · exact ⟨_, rfl⟩
        · exact ⟨_, rfl⟩
  · rename_i data readNs writing
    obtain ⟨chunk, found⟩ := inHand wid data readNs writing
    unfold stepWriting
    rw [found]
    dsimp only
    split
    · exact ⟨_, rfl⟩
    · exact ⟨_, rfl⟩
  · split
    · exact ⟨_, rfl⟩
    · exact ⟨_, rfl⟩
  · exact ⟨_, rfl⟩
  · rename_i returned
    exact absurd returned busy

theorem run_append
    {first second : List CopyMove}
    {middle : CopyState}
    (ran : job.run first state = some middle) :
    job.run (first ++ second) state = job.run second middle := by
  induction first generalizing state with
  | nil =>
      cases ran
      rfl
  | cons move first inductionHypothesis =>
      obtain ⟨after, stepped, rest⟩ := Option.bind_eq_some_iff.mp ran
      rw [List.cons_append, run, stepped, Option.bind_some]
      exact inductionHypothesis rest

/-- Every schedule goes on to one after which the threads are joined. -/
theorem exists_joined
    (inHand : job.InHand state) :
    ∃ more final, job.run more state = some final ∧ job.Joined final := by
  induction rank : job.totalRank state using Nat.strong_induction_on
    generalizing state with
  | h _ inductionHypothesis =>
      by_cases joined : job.Joined state
      · exact ⟨[], state, rfl, joined⟩
      · unfold Joined at joined
        push Not at joined
        obtain ⟨wid, employed, busy⟩ := joined
        obtain ⟨next, step⟩ := exists_step inHand employed busy none 0
        obtain ⟨-, stepped⟩ := step_stepped step
        have lower := stepped.totalRank_lt employed
        obtain ⟨more, final, ran, joined⟩ :=
          inductionHypothesis _ (rank ▸ lower) (stepped.inHand inHand) rfl
        refine ⟨⟨wid, none, 0⟩ :: more, final, ?_, joined⟩
        rw [run, step, Option.bind_some]
        exact ran

/--
A call that failed has set `has_error` or is about to, and `has_error` has a
text or is about to get one.
-/
structure Blamed
    (job : CopyJob)
    (state : CopyState) : Prop where
  noticed :
    (∃ transfer ∈ state.transfers, transfer.full = false) →
      state.hasError = true ∨
        ∃ wid < job.bufCaps.length, (state.workers wid).phase = .failed
  named :
    state.hasError = true →
      state.firstError ≠ "" ∨
        ∃ wid < job.bufCaps.length, (state.workers wid).phase = .reporting

theorem failureText_ne_empty
    (wid entry : Nat) :
    failureText wid entry ≠ "" := by
  intro empty
  have length := congrArg String.length empty
  simp only [failureText, String.length_append] at length
  have positive : ("worker ").length = 7 := rfl
  have zero : ("").length = 0 := rfl
  omega

/-- Another worker stays where it is. -/
theorem Stepped.persists
    (stepped : job.Stepped state wid next)
    (phase : CopyPhase)
    (elsewhere : (state.workers wid).phase ≠ phase)
    (held :
      ∃ other < job.bufCaps.length, (state.workers other).phase = phase) :
    ∃ other < job.bufCaps.length, (next.workers other).phase = phase := by
  obtain ⟨other, employed, there⟩ := held
  obtain ⟨worker, workers, -⟩ := stepped.rank_lt
  have different : other ≠ wid := by
    rintro rfl
    exact elsewhere there
  refine ⟨other, employed, ?_⟩
  rw [workers, Function.update_of_ne different]
  exact there

/-- A step of a worker that is not at `failed`, without a failing call. -/
theorem Stepped.stillNoticed
    (stepped : job.Stepped state wid next)
    (blamed : job.Blamed state)
    (elsewhere : (state.workers wid).phase ≠ .failed)
    (kept : next.hasError = state.hasError)
    (fine :
      ∀ transfer ∈ next.transfers,
        transfer.full = false → transfer ∈ state.transfers) :
    (∃ transfer ∈ next.transfers, transfer.full = false) →
      next.hasError = true ∨
        ∃ wid < job.bufCaps.length, (next.workers wid).phase = .failed := by
  rintro ⟨transfer, called, short⟩
  have earlier := fine transfer called short
  rw [kept]
  exact (blamed.noticed ⟨transfer, earlier, short⟩).imp_right
    (stepped.persists .failed elsewhere)

/-- A step of a worker that is not at `reporting` and does not claim. -/
theorem Stepped.stillNamed
    (stepped : job.Stepped state wid next)
    (blamed : job.Blamed state)
    (elsewhere : (state.workers wid).phase ≠ .reporting)
    (kept : next.hasError = state.hasError)
    (text : next.firstError = state.firstError) :
    next.hasError = true →
      next.firstError ≠ "" ∨
        ∃ wid < job.bufCaps.length, (next.workers wid).phase = .reporting := by
  intro raised
  rw [kept] at raised
  rw [text]
  exact (blamed.named raised).imp_right
    (stepped.persists .reporting elsewhere)

/-- Appending a call that was full adds no failed one. -/
theorem full_of_append
    {transfers : List Transfer}
    {made : Transfer}
    (full : made.full = true) :
    ∀ transfer ∈ transfers ++ [made],
      transfer.full = false → transfer ∈ transfers := by
  intro transfer called short
  rcases List.mem_append.mp called with earlier | now
  · exact earlier
  · cases List.mem_singleton.mp now
    rw [full] at short
    cases short

theorem Stepped.blamed
    (employed : wid < job.bufCaps.length)
    (stepped : job.Stepped state wid next)
    (blamed : job.Blamed state) :
    job.Blamed next := by
  have noticed := stepped.stillNoticed blamed
  have named := stepped.stillNamed blamed
  cases stepped with
  | exhausted reading =>
      rw [reading] at noticed named
      exact ⟨noticed nofun rfl fun _ called _ => called,
        named nofun rfl rfl⟩
  | read reading =>
      rw [reading] at noticed named
      exact ⟨noticed nofun rfl (full_of_append rfl), named nofun rfl rfl⟩
  | readFailed reading =>
      rw [reading] at named
      refine ⟨fun _ => .inr ⟨wid, employed, ?_⟩, named nofun rfl rfl⟩
      simp only [CopyState.setWorker, Function.update_self]
  | wrote writing =>
      rw [writing] at noticed named
      exact ⟨noticed nofun rfl (full_of_append rfl), named nofun rfl rfl⟩
  | writeFailed writing =>
      rw [writing] at named
      refine ⟨fun _ => .inr ⟨wid, employed, ?_⟩, named nofun rfl rfl⟩
      simp only [CopyState.setWorker, Function.update_self]
  | claimed failed =>
      refine ⟨fun _ => .inl rfl, fun _ => .inr ⟨wid, employed, ?_⟩⟩
      simp only [CopyState.setWorker, Function.update_self]
  | beaten failed taken =>
      rw [failed] at named
      exact ⟨fun _ => .inl taken, named nofun rfl rfl⟩
  | reported reporting =>
      rw [reporting] at noticed
      exact ⟨noticed nofun rfl fun _ called _ => called,
        fun _ => .inl (failureText_ne_empty _ _)⟩

theorem start_blamed
    (job : CopyJob)
    (devices : Devices) :
    job.Blamed (job.start devices) where
  noticed := by
    rintro ⟨transfer, called, -⟩
    cases called
  named := by
    intro raised
    cases raised

/-- When the threads are joined, a failed call has left a text. -/
theorem Blamed.joined
    (blamed : job.Blamed state)
    (joined : job.Joined state)
    (bad : ∃ transfer ∈ state.transfers, transfer.full = false) :
    state.hasError = true ∧ state.firstError ≠ "" := by
  have raised : state.hasError = true := by
    rcases blamed.noticed bad with raised | ⟨wid, employed, failed⟩
    · exact raised
    · rw [joined wid employed] at failed
      cases failed
  refine ⟨raised, ?_⟩
  rcases blamed.named raised with text | ⟨wid, employed, reporting⟩
  · exact text
  · rw [joined wid employed] at reporting
    cases reporting

end CopyJob

end NvmeofRaft
