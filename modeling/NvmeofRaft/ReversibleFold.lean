import Mathlib.Data.List.Basic
import Mathlib.Logic.Function.Basic

namespace NvmeofRaft

/-!
# Reversible folds

A step that loses neither the state nor the input keeps states apart: two folds
that have come to different states stay different under any common inputs.
-/

universe u v

variable {σ : Type u} {α : Type v}

/-- The step can be undone, for its state and for its input. -/
structure Reversible (step : σ → α → σ) : Prop where
  state : ∀ input, Function.Injective fun state => step state input
  input : ∀ state, Function.Injective (step state)

namespace Reversible

variable {step : σ → α → σ}

/-- Common inputs keep two states apart. -/
theorem foldl_injective
    (reversible : Reversible step)
    (inputs : List α) :
    Function.Injective fun state => inputs.foldl step state := by
  induction inputs with
  | nil =>
      exact fun _ _ same => same
  | cons input inputs inductionHypothesis =>
      exact inductionHypothesis.comp (reversible.state input)

/-- Inputs that differ at one place lead to different states. -/
theorem foldl_ne_of_one
    (reversible : Reversible step)
    {front back : List α}
    {first second : α}
    (differ : first ≠ second)
    (state : σ) :
    (front ++ first :: back).foldl step state ≠
      (front ++ second :: back).foldl step state := by
  intro same
  simp only [List.foldl_append, List.foldl_cons] at same
  exact differ
    (reversible.input _ (reversible.foldl_injective back same))

end Reversible

end NvmeofRaft
