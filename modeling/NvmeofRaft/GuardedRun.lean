import Mathlib.Logic.Basic

namespace NvmeofRaft

/-!
# Runs under a condition

Runs of a partial step function over a list of labels.  A guarded run also
asks a condition of every state and label it passes through.
-/

section

variable {σ ι : Type}

/-- The state after the labels, if every step is possible and allowed. -/
def runWhile
    (allowed : σ → ι → Bool)
    (step : σ → ι → Option σ) :
    σ → List ι → Option σ
  | state, [] =>
      some state
  | state, label :: labels =>
      if allowed state label then
        (step state label).bind fun next => runWhile allowed step next labels
      else
        none

/-- A guarded run starts with an allowed step and goes on from its result. -/
theorem runWhile_cons
    {allowed : σ → ι → Bool}
    {step : σ → ι → Option σ}
    {state final : σ}
    {label : ι}
    {labels : List ι}
    (run : runWhile allowed step state (label :: labels) = some final) :
    ∃ next,
      allowed state label = true ∧
        step state label = some next ∧
          runWhile allowed step next labels = some final := by
  simp only [runWhile] at run
  split at run
  · rename_i allowedHere
    obtain ⟨next, stepped, rest⟩ := Option.bind_eq_some_iff.mp run
    exact ⟨next, allowedHere, stepped, rest⟩
  · cases run

/-- A run through an allowed step goes on from its result. -/
theorem runWhile_of_step
    {allowed : σ → ι → Bool}
    {step : σ → ι → Option σ}
    {state next : σ}
    {label : ι}
    (allowedHere : allowed state label = true)
    (stepped : step state label = some next)
    (labels : List ι) :
    runWhile allowed step state (label :: labels) =
      runWhile allowed step next labels := by
  rw [runWhile, if_pos allowedHere, stepped, Option.bind_some]

/-- A guarded run ends with an allowed step. -/
theorem runWhile_concat
    {allowed : σ → ι → Bool}
    {step : σ → ι → Option σ} :
    ∀ {labels label state final},
      runWhile allowed step state (labels ++ [label]) = some final →
      ∃ middle,
        runWhile allowed step state labels = some middle ∧
          allowed middle label = true ∧
            step middle label = some final := by
  intro labels
  induction labels with
  | nil =>
      intro label state final run
      obtain ⟨next, allowedHere, stepped, rest⟩ := runWhile_cons run
      rw [runWhile, Option.some.injEq] at rest
      exact ⟨state, rfl, allowedHere, rest ▸ stepped⟩
  | cons first labels inductionHypothesis =>
      intro label state final run
      obtain ⟨next, allowedHere, stepped, rest⟩ := runWhile_cons run
      obtain ⟨middle, reached, last⟩ := inductionHypothesis rest
      refine ⟨middle, ?_, last⟩
      rw [runWhile, if_pos allowedHere, stepped]
      exact reached

/-- A guarded run over two lists runs the second one from where the first ends. -/
theorem runWhile_append
    {allowed : σ → ι → Bool}
    {step : σ → ι → Option σ}
    {second : List ι} :
    ∀ {first state},
      runWhile allowed step state (first ++ second) =
        (runWhile allowed step state first).bind fun middle =>
          runWhile allowed step middle second := by
  intro first
  induction first with
  | nil =>
      intro state
      rfl
  | cons label labels inductionHypothesis =>
      intro state
      rw [List.cons_append, runWhile, runWhile]
      split
      · rw [Option.bind_assoc]
        exact congrArg _ (funext fun next => inductionHypothesis)
      · rfl

/-- What every allowed step preserves holds at the end of a guarded run. -/
theorem runWhile_invariant
    {allowed : σ → ι → Bool}
    {step : σ → ι → Option σ}
    (invariant : σ → Prop)
    (preserved :
      ∀ state label next,
        invariant state →
        allowed state label = true →
        step state label = some next →
        invariant next) :
    ∀ {labels state final},
      invariant state →
      runWhile allowed step state labels = some final →
      invariant final := by
  intro labels
  induction labels with
  | nil =>
      intro state final holds run
      simp only [runWhile, Option.some.injEq] at run
      exact run ▸ holds
  | cons label labels inductionHypothesis =>
      intro state final holds run
      obtain ⟨next, allowedHere, stepped, rest⟩ := runWhile_cons run
      exact inductionHypothesis
        (preserved state label next holds allowedHere stepped) rest

/-- A run on concrete labels that passes a check is a run. -/
theorem runWhile_exists
    {allowed : σ → ι → Bool}
    {step : σ → ι → Option σ}
    {state : σ}
    {labels : List ι}
    {check : σ → Bool}
    (checked : (runWhile allowed step state labels).any check = true) :
    ∃ final,
      runWhile allowed step state labels = some final ∧
        check final = true := by
  cases reached : runWhile allowed step state labels with
  | none =>
      rw [reached] at checked
      cases checked
  | some final =>
      rw [reached] at checked
      exact ⟨final, rfl, checked⟩

end

section

variable {α : Type}

/-- Every event fits what came before it; the latest event is the first. -/
def Everywhere
    (fits : List α → α → Prop)
    (history : List α) : Prop :=
  ∀ later event earlier,
    history = later ++ event :: earlier → fits earlier event

/-- No event is wrong in an empty history. -/
theorem everywhere_nil
    (fits : List α → α → Prop) :
    Everywhere fits [] := by
  intro later event earlier same
  simp at same

theorem everywhere_cons
    {fits : List α → α → Prop}
    {event : α}
    {history : List α}
    (first : fits history event)
    (rest : Everywhere fits history) :
    Everywhere fits (event :: history) := by
  intro later other earlier same
  cases later with
  | nil =>
      rw [List.nil_append, List.cons.injEq] at same
      obtain ⟨rfl, rfl⟩ := same
      exact first
  | cons latest later =>
      rw [List.cons_append, List.cons.injEq] at same
      exact rest later other earlier same.2

end

end NvmeofRaft
