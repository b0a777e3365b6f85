import NvmeofRaft.StateFrame

namespace NvmeofRaft

/-!
# Functions that lock by hand

A function that locks and unlocks a mutex by hand is run on the guarded state
and on whether the function holds the mutex.  Code that touches the state is
run under the lock and passes its exceptions on, with the lock still held.
Locking twice, unlocking a mutex that is not held and touching the state
without it are exceptions of their own.  What a lock finds is an input: other
functions may have run since the mutex was released.
-/

/-- A state behind a mutex, and whether the running function holds it. -/
structure Guarded (σ : Type) where
  state : σ
  held : Bool

/-- The exceptions of the code under the lock, and misuses of the lock. -/
inductive GuardedExn (ε : Type) where
  | threw (exn : ε)
  | lockedTwice
  | notLocked
  | unguarded
  deriving Repr, DecidableEq

variable {ε σ α : Type}

/-- Wait for the mutex; the state is then the found one. -/
def lockMutex (found : σ) : EStateM (GuardedExn ε) (Guarded σ) Unit :=
  fun guarded =>
    if guarded.held then
      .error .lockedTwice guarded
    else
      .ok () ⟨found, true⟩

def unlockMutex : EStateM (GuardedExn ε) (Guarded σ) Unit :=
  fun guarded =>
    if guarded.held then
      .ok () { guarded with held := false }
    else
      .error .notLocked guarded

/-- Run code that needs the lock. -/
def underLock
    (action : EStateM ε σ α) :
    EStateM (GuardedExn ε) (Guarded σ) α :=
  fun guarded =>
    if guarded.held then
      match action.run guarded.state with
      | .ok value state => .ok value ⟨state, true⟩
      | .error exn state => .error (.threw exn) ⟨state, true⟩
    else
      .error .unguarded guarded

section

variable
  {returns : α → Guarded σ → Prop}
  {throws : GuardedExn ε → Guarded σ → Prop}
  {state : σ}

@[simp] theorem wp_set
    {returns : PUnit → σ → Prop}
    {throws : ε → σ → Prop}
    (found : σ) :
    wp (set found) returns throws state ↔ returns ⟨⟩ found :=
  Iff.rfl

@[simp] theorem wp_lockMutex
    {returns : Unit → Guarded σ → Prop}
    (found : σ) :
    wp (lockMutex found) returns throws ⟨state, false⟩ ↔
      returns () ⟨found, true⟩ :=
  Iff.rfl

@[simp] theorem wp_unlockMutex
    {returns : Unit → Guarded σ → Prop} :
    wp unlockMutex returns throws ⟨state, true⟩ ↔
      returns () ⟨state, false⟩ :=
  Iff.rfl

@[simp] theorem wp_underLock
    (action : EStateM ε σ α) :
    wp (underLock action) returns throws ⟨state, true⟩ ↔
      wp action (fun value final => returns value ⟨final, true⟩)
        (fun exn final => throws (.threw exn) ⟨final, true⟩) state := by
  unfold wp underLock EStateM.run
  dsimp only
  rw [if_pos rfl]
  cases action state <;> rfl

end

/-- The mutex is free when the function has ended, by return or exception. -/
def Released
    (action : EStateM (GuardedExn ε) (Guarded σ) α)
    (state : σ) : Prop :=
  (finalState (action.run ⟨state, false⟩)).held = false

/-- The function returns without the mutex. -/
def Freed
    (returns : α → σ → Prop)
    (value : α)
    (final : Guarded σ) : Prop :=
  final.held = false ∧ returns value final.state

/-- An exception of the code under the lock leaves the mutex held. -/
def Stranded
    (throws : ε → σ → Prop)
    (exn : GuardedExn ε)
    (final : Guarded σ) : Prop :=
  ∃ cause, exn = .threw cause ∧ final.held = true ∧ throws cause final.state

/--
The function locks and unlocks around the body, and misuses the lock nowhere:
it ends as the body does, freed by a return and stranded by an exception.
-/
def LocksAround
    (action : EStateM (GuardedExn ε) (Guarded σ) α)
    (body : EStateM ε σ α)
    (found : σ) : Prop :=
  ∀ (returns : α → σ → Prop) (throws : ε → σ → Prop) (state : σ),
    wp body returns throws found →
      wp action (Freed returns) (Stranded throws) ⟨state, false⟩

/-- Such a function releases the mutex exactly when its body returns. -/
theorem LocksAround.released_iff
    {action : EStateM (GuardedExn ε) (Guarded σ) α}
    {body : EStateM ε σ α}
    {found : σ}
    {fails : Prop}
    (around : LocksAround action body found)
    (outcome : wp body (fun _ _ => ¬ fails) (fun _ _ => fails) found)
    (state : σ) :
    Released action state ↔ ¬ fails := by
  have outcome := around _ _ state outcome
  unfold Released
  unfold wp at outcome
  cases ended : action.run ⟨state, false⟩ with
  | ok value final =>
      rw [ended] at outcome
      obtain ⟨free, calm⟩ := outcome
      exact ⟨fun _ => calm, fun _ => free⟩
  | error exn final =>
      rw [ended] at outcome
      obtain ⟨cause, -, held, failed⟩ := outcome
      rw [finalState_error, held]
      exact ⟨nofun, fun calm => absurd failed calm⟩

end NvmeofRaft
