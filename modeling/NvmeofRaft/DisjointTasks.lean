import Mathlib.Data.Set.Basic
import Mathlib.Data.Nat.ModEq

namespace NvmeofRaft

/-!
# Tasks with separate targets

A task overwrites the cells of its target with values that are fixed before
any task runs.  When no two targets share a cell, what the finished tasks leave
depends on which tasks they are and not on the order or the place in which they
ran.  The tasks of one list can be dealt to workers by stride.
-/

section

variable {Task Cell Value : Type*}

/--
The tasks that are done have left their values, and every cell that belongs to
no such task still holds what it held before.
-/
structure Settled
    (target : Task → Set Cell)
    (value : Task → Cell → Value)
    (done : Set Task)
    (before after : Cell → Value) : Prop where
  landed :
    ∀ task ∈ done, ∀ cell ∈ target task, after cell = value task cell
  kept :
    ∀ cell, (∀ task ∈ done, cell ∉ target task) → after cell = before cell

namespace Settled

variable
  {target : Task → Set Cell}
  {value : Task → Cell → Value}
  {done : Set Task}
  {before after : Cell → Value}

/-- Nothing is done yet. -/
theorem start
    (none : ∀ task, task ∉ done) :
    Settled target value done before before where
  landed task held := absurd held (none task)
  kept _ _ := rfl

/-- The tasks that are done determine every cell. -/
theorem unique
    {other : Cell → Value}
    (settled : Settled target value done before after)
    (alike : Settled target value done before other) :
    after = other := by
  funext cell
  by_cases owned : ∃ task ∈ done, cell ∈ target task
  · obtain ⟨task, held, inside⟩ := owned
    rw [settled.landed task held cell inside, alike.landed task held cell inside]
  · have free : ∀ task ∈ done, cell ∉ target task := by
      intro task held inside
      exact owned ⟨task, held, inside⟩
    rw [settled.kept cell free, alike.kept cell free]

/-- Tasks without a target can count as done or not. -/
theorem of_sameTargets
    {done' : Set Task}
    (settled : Settled target value done before after)
    (same :
      ∀ task, (target task).Nonempty → (task ∈ done ↔ task ∈ done')) :
    Settled target value done' before after where
  landed task held cell inside :=
    settled.landed task ((same task ⟨cell, inside⟩).mpr held) cell inside
  kept := by
    intro cell free
    apply settled.kept
    intro task held inside
    exact free task ((same task ⟨cell, inside⟩).mp held) inside

/-- A cell that no task writes is as before. -/
theorem untouched
    (settled : Settled target value done before after)
    (cell : Cell)
    (free : ∀ task, cell ∉ target task) :
    after cell = before cell :=
  settled.kept cell fun task _ => free task

/-- One more task runs. -/
theorem step
    {next : Cell → Value}
    {ran : Task}
    {done' : Set Task}
    (settled : Settled target value done before after)
    (apart :
      ∀ task ∈ done, task ≠ ran →
        ∀ cell ∈ target task, cell ∉ target ran)
    (grown : ∀ task, task ∈ done' ↔ task ∈ done ∨ task = ran)
    (written : ∀ cell ∈ target ran, next cell = value ran cell)
    (frame : ∀ cell ∉ target ran, next cell = after cell) :
    Settled target value done' before next where
  landed := by
    intro task held cell inside
    by_cases same : task = ran
    · subst same
      exact written cell inside
    · have earlier : task ∈ done := ((grown task).mp held).resolve_right same
      rw [frame cell (apart task earlier same cell inside)]
      exact settled.landed task earlier cell inside
  kept := by
    intro cell free
    rw [frame cell (free ran ((grown ran).mpr (.inr rfl)))]
    apply settled.kept
    intro task held
    exact free task ((grown task).mpr (.inl held))

end Settled

end

/-- From one entry to the next a strided loop passes that entry alone. -/
theorem lt_add_stride_iff
    {task entry workers : Nat}
    (positive : 0 < workers)
    (dealt : task % workers = entry % workers) :
    task < entry + workers ↔ task < entry ∨ task = entry := by
  constructor
  · intro below
    by_contra outside
    have above : entry ≤ task := by omega
    have divides : workers ∣ task - entry :=
      (Nat.modEq_iff_dvd' above).mp dealt.symm
    have long : workers ≤ task - entry :=
      Nat.le_of_dvd (by omega) divides
    omega
  · intro passed
    omega

end NvmeofRaft
