import Mathlib.Logic.Basic

namespace NvmeofRaft

/-!
# Pre- and postconditions of state-changing computations

A computation of `EStateM` ends in some final state, whether it returns or
throws.  `wp` is the weakest precondition for a pair of postconditions, one
for each way to end.  A computation frames a view of the state when that view
is the same before and after.  The rules below follow the way such
computations are put together.
-/

variable {ε σ α β γ : Type}

/-- The action ends in `returns` when it returns, in `throws` when it throws. -/
def wp
    (action : EStateM ε σ α)
    (returns : α → σ → Prop)
    (throws : ε → σ → Prop)
    (state : σ) : Prop :=
  match action.run state with
  | .ok value final => returns value final
  | .error exn final => throws exn final

section

variable {returns weakReturns : α → σ → Prop}
variable {throws weakThrows : ε → σ → Prop}
variable {state : σ}

@[simp] theorem wp_pure
    (value : α) :
    wp (pure value) returns throws state ↔ returns value state :=
  Iff.rfl

@[simp] theorem wp_get
    {returns : σ → σ → Prop} :
    wp get returns throws state ↔ returns state state :=
  Iff.rfl

@[simp] theorem wp_modify
    {returns : PUnit → σ → Prop}
    (change : σ → σ) :
    wp (modify change) returns throws state ↔ returns ⟨⟩ (change state) :=
  Iff.rfl

@[simp] theorem wp_throw
    (exn : ε) :
    wp (throw exn) returns throws state ↔ throws exn state :=
  Iff.rfl

@[simp] theorem wp_bind
    {returns : β → σ → Prop}
    (action : EStateM ε σ α)
    (continuation : α → EStateM ε σ β) :
    wp (action >>= continuation) returns throws state ↔
      wp action
        (fun value final => wp (continuation value) returns throws final)
        throws state := by
  unfold wp
  rw [EStateM.run_bind]
  cases action.run state <;> rfl

@[simp] theorem wp_discard
    {returns : PUnit → σ → Prop}
    (action : EStateM ε σ α) :
    wp (discard action) returns throws state ↔
      wp action (fun _ final => returns ⟨⟩ final) throws state := by
  have asBind : discard action = action >>= fun _ => pure ⟨⟩ := by
    rfl
  rw [asBind, wp_bind]
  rfl

@[simp] theorem wp_ite
    {condition : Prop}
    [Decidable condition]
    (yes no : EStateM ε σ α) :
    wp (if condition then yes else no) returns throws state ↔
      if condition then wp yes returns throws state
      else wp no returns throws state := by
  split <;> rfl

/-- A handler runs from the state in which the action threw. -/
theorem run_tryCatch
    (action : EStateM ε σ α)
    (handler : ε → EStateM ε σ α)
    (state : σ) :
    (tryCatch action handler).run state =
      match action.run state with
      | .ok value final => .ok value final
      | .error exn final => (handler exn).run final := by
  show EStateM.tryCatch action handler state = _
  delta EStateM.tryCatch
  unfold EStateM.run
  cases action state <;> rfl

@[simp] theorem wp_tryCatch
    (action : EStateM ε σ α)
    (handler : ε → EStateM ε σ α) :
    wp (tryCatch action handler) returns throws state ↔
      wp action returns
        (fun exn final => wp (handler exn) returns throws final) state := by
  unfold wp
  rw [run_tryCatch]
  cases action.run state <;> rfl

/-- Weaken both postconditions. -/
theorem wp_mono
    {action : EStateM ε σ α}
    (holds : wp action returns throws state)
    (onReturn : ∀ value final, returns value final → weakReturns value final)
    (onThrow : ∀ exn final, throws exn final → weakThrows exn final) :
    wp action weakReturns weakThrows state := by
  unfold wp at *
  cases ended : action.run state with
  | ok value final =>
      rw [ended] at holds
      exact onReturn value final holds
  | error exn final =>
      rw [ended] at holds
      exact onThrow exn final holds

/-- What holds of every result holds of those of an action. -/
theorem wp_of_forall
    {action : EStateM ε σ α}
    (holds : ∀ value final, returns value final) :
    wp action returns (fun _ _ => True) state := by
  unfold wp
  split
  · exact holds _ _
  · trivial

/-- Two facts about the same run hold together. -/
theorem wp_and
    {action : EStateM ε σ α}
    (first : wp action returns throws state)
    (second : wp action weakReturns weakThrows state) :
    wp action (fun value final => returns value final ∧ weakReturns value final)
      (fun exn final => throws exn final ∧ weakThrows exn final) state := by
  unfold wp at *
  cases ended : action.run state with
  | ok value final =>
      rw [ended] at first second
      exact ⟨first, second⟩
  | error exn final =>
      rw [ended] at first second
      exact ⟨first, second⟩

end

/-- The state in which a computation ended, normally or by an exception. -/
def finalState : EStateM.Result ε σ α → σ
  | .ok _ state => state
  | .error _ state => state

@[simp] theorem finalState_ok
    (value : α)
    (state : σ) :
    finalState (.ok value state : EStateM.Result ε σ α) = state :=
  rfl

@[simp] theorem finalState_error
    (exn : ε)
    (state : σ) :
    finalState (.error exn state : EStateM.Result ε σ α) = state :=
  rfl

/-- The computation leaves the view unchanged, however it ends. -/
def Frames
    (view : σ → γ)
    (action : EStateM ε σ α) : Prop :=
  ∀ state, view (finalState (action.run state)) = view state

namespace Frames

variable {view : σ → γ}

theorem pure
    (value : α) :
    Frames view (Pure.pure value : EStateM ε σ α) :=
  fun _ => rfl

theorem get :
    Frames view (MonadState.get : EStateM ε σ σ) :=
  fun _ => rfl

theorem throw
    (exn : ε) :
    Frames view (MonadExcept.throw exn : EStateM ε σ α) :=
  fun _ => rfl

/-- A state change frames every view it does not touch. -/
theorem modifyState
    {change : σ → σ}
    (untouched : ∀ state, view (change state) = view state) :
    Frames view (modify change : EStateM ε σ PUnit) :=
  untouched

/-- Sequencing two framing computations frames the view. -/
theorem bind
    {action : EStateM ε σ α}
    {continuation : α → EStateM ε σ β}
    (first : Frames view action)
    (later : ∀ value, Frames view (continuation value)) :
    Frames view (action >>= continuation) := by
  intro state
  rw [EStateM.run_bind]
  have firstKeeps := first state
  cases ended : action.run state with
  | ok value middle =>
      rw [ended] at firstKeeps
      exact (later value middle).trans firstKeeps
  | error exn middle =>
      rw [ended] at firstKeeps
      exact firstKeeps

/-- A conditional frames the view when both branches do. -/
theorem ite
    {condition : Prop}
    [Decidable condition]
    {yes no : EStateM ε σ α}
    (whenTrue : Frames view yes)
    (whenFalse : Frames view no) :
    Frames view (if condition then yes else no) := by
  split
  · exact whenTrue
  · exact whenFalse

/-- Dropping the value does not change the state. -/
theorem discard
    {action : EStateM ε σ α}
    (frames : Frames view action) :
    Frames view (Functor.discard action : EStateM ε σ PUnit) :=
  bind frames fun _ => pure _

/-- A handler goes on from the state in which the action threw. -/
theorem tryCatch
    {action : EStateM ε σ α}
    {handler : ε → EStateM ε σ α}
    (body : Frames view action)
    (recovery : ∀ exn, Frames view (handler exn)) :
    Frames view (MonadExcept.tryCatch action handler) := by
  intro state
  have bodyKeeps := body state
  rw [run_tryCatch]
  cases ended : action.run state with
  | ok value middle =>
      rw [ended] at bodyKeeps
      exact bodyKeeps
  | error exn middle =>
      rw [ended] at bodyKeeps
      exact (recovery exn middle).trans bodyKeeps

/-- A view that can be read off a framed one is framed. -/
theorem coarsen
    {δ : Type}
    {action : EStateM ε σ α}
    (frames : Frames view action)
    {coarse : σ → δ}
    (read : γ → δ)
    (reads : ∀ state, coarse state = read (view state)) :
    Frames coarse action := by
  intro state
  rw [reads, reads, frames state]

/-- A framed view has its old value in both postconditions. -/
theorem ends
    {action : EStateM ε σ α}
    (frames : Frames view action)
    (state : σ) :
    NvmeofRaft.wp action
      (fun _ final => view final = view state)
      (fun _ final => view final = view state) state := by
  have kept := frames state
  unfold NvmeofRaft.wp
  cases ended : action.run state with
  | ok value final =>
      rw [ended] at kept
      exact kept
  | error exn final =>
      rw [ended] at kept
      exact kept

/-- A view is framed when it has its old value in both postconditions. -/
theorem of_wp
    {action : EStateM ε σ α}
    (spec :
      ∀ state,
        NvmeofRaft.wp action
          (fun _ final => view final = view state)
          (fun _ final => view final = view state) state) :
    Frames view action := by
  intro state
  have kept := spec state
  unfold NvmeofRaft.wp at kept
  cases ended : action.run state with
  | ok value final =>
      rw [ended] at kept
      exact kept
  | error exn final =>
      rw [ended] at kept
      exact kept

end Frames

end NvmeofRaft
