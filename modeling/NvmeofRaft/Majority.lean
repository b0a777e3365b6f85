import Mathlib.Data.Finset.Card
import Mathlib.Data.Fintype.Fin
import Mathlib.Data.List.Sort
import Mathlib.Data.Vector.Basic
import Mathlib.Tactic.Linarith

namespace NvmeofRaft

/-!
# Majorities

Sets with more than half of the members, and the entries of a list that carry
one value.
-/

section

variable {n : Nat}

/-- More than half of the members. -/
def IsMajority (members : Finset (Fin n)) : Prop :=
  n < 2 * members.card

/-- Two majorities have a member in common. -/
theorem IsMajority.meet
    {first second : Finset (Fin n)}
    (firstMajority : IsMajority first)
    (secondMajority : IsMajority second) :
    ∃ member, member ∈ first ∧ member ∈ second := by
  have large : (Finset.univ : Finset (Fin n)).card <
      first.card + second.card := by
    rw [Finset.card_univ, Fintype.card_fin]
    unfold IsMajority at firstMajority secondMajority
    omega
  obtain ⟨member, both⟩ :=
    Finset.inter_nonempty_of_card_lt_card_add_card
      (Finset.subset_univ first) (Finset.subset_univ second) large
  exact ⟨member, (Finset.mem_inter.mp both).1,
    (Finset.mem_inter.mp both).2⟩

/-- The positions of a value in a list. -/
def positions
    {α : Type}
    [DecidableEq α]
    (values : List α)
    (fallback value : α) :
    Finset (Fin n) :=
  Finset.univ.filter fun position =>
    values.getD position fallback = value

/-- A list has as many positions of a value as it has copies of it. -/
theorem card_positions
    {α : Type}
    [DecidableEq α]
    {values : List α}
    (length : values.length = n)
    (fallback value : α) :
    (positions values fallback value : Finset (Fin n)).card =
      values.count value := by
  have counted := Fin.card_filter_univ_eq_vector_get_eq_count value
    (⟨values, length⟩ : List.Vector α n)
  rw [positions]
  refine Eq.trans (congrArg Finset.card ?_) counted
  apply Finset.filter_congr
  intro position _
  subst length
  simp [List.Vector.get]

/-- Enough copies of a value in a list are a majority. -/
theorem isMajority_positions
    {α : Type}
    [DecidableEq α]
    {values : List α}
    (length : values.length = n)
    (fallback : α)
    {value : α}
    (enough : n / 2 + 1 ≤ values.count value) :
    IsMajority (positions values fallback value : Finset (Fin n)) := by
  unfold IsMajority
  rw [card_positions length]
  omega

/-- The value in the middle of a list in descending order. -/
def median (values : List Nat) : Nat :=
  (values.insertionSort (· ≥ ·)).getD (values.length / 2) 0

/-- More than half of the values are at least the median. -/
theorem count_median
    {values : List Nat}
    (nonempty : 0 < values.length) :
    values.length / 2 + 1 ≤
      values.countP fun value => decide (median values ≤ value) := by
  have permuted := values.perm_insertionSort (· ≥ ·)
  have ordered := values.pairwise_insertionSort (· ≥ ·)
  generalize sameSorted : values.insertionSort (· ≥ ·) = sorted
    at permuted ordered
  have middle : values.length / 2 < sorted.length := by
    rw [permuted.length_eq]
    omega
  have isMedian : median values = sorted[values.length / 2] := by
    rw [median, sameSorted, List.getD_eq_getElem?_getD,
      List.getElem?_eq_getElem middle]
    rfl
  have front :
      ∀ value, value ∈ sorted.take (values.length / 2 + 1) →
        decide (median values ≤ value) = true := by
    intro value inFront
    obtain ⟨position, inside, rfl⟩ := List.mem_iff_getElem.mp inFront
    rw [List.length_take] at inside
    rw [List.getElem_take, isMedian, decide_eq_true_eq]
    by_cases before : position < values.length / 2
    · exact List.pairwise_iff_getElem.mp ordered position _ _ middle before
    · have same : position = values.length / 2 := by omega
      subst same
      exact le_refl _
  rw [← permuted.countP_eq]
  calc values.length / 2 + 1
      = (sorted.take (values.length / 2 + 1)).length := by
        rw [List.length_take]
        omega
    _ = (sorted.take (values.length / 2 + 1)).countP
          fun value => decide (median values ≤ value) :=
        (List.countP_eq_length.mpr front).symm
    _ ≤ sorted.countP fun value => decide (median values ≤ value) :=
        (List.take_sublist _ _).countP_le

/-- At most half of the values are above the median. -/
theorem le_median
    {values : List Nat}
    {bound : Nat}
    (enough :
      values.length / 2 + 1 ≤
        values.countP fun value => decide (bound ≤ value)) :
    bound ≤ median values := by
  have permuted := values.perm_insertionSort (· ≥ ·)
  have ordered := values.pairwise_insertionSort (· ≥ ·)
  rw [← permuted.countP_eq] at enough
  generalize sameSorted : values.insertionSort (· ≥ ·) = sorted
    at permuted ordered enough
  have middle : values.length / 2 < sorted.length := by
    have counted :=
      List.countP_le_length (p := fun value => decide (bound ≤ value))
        (l := sorted)
    omega
  have isMedian : median values = sorted[values.length / 2] := by
    rw [median, sameSorted, List.getD_eq_getElem?_getD,
      List.getElem?_eq_getElem middle]
    rfl
  by_contra above
  rw [isMedian] at above
  -- From the middle on everything is smaller than the bound.
  have behind :
      (sorted.drop (values.length / 2)).countP
          (fun value => decide (bound ≤ value)) = 0 := by
    rw [List.countP_eq_zero]
    intro value inBack
    obtain ⟨position, inside, rfl⟩ := List.mem_iff_getElem.mp inBack
    rw [List.length_drop] at inside
    rw [List.getElem_drop, decide_eq_true_eq]
    rcases Nat.eq_zero_or_pos position with zero | positive
    · subst zero
      exact above
    · have smaller := List.pairwise_iff_getElem.mp ordered
        (values.length / 2) (values.length / 2 + position) middle
        (by omega) (by omega)
      omega
  have split :
      sorted.countP (fun value => decide (bound ≤ value)) =
        (sorted.take (values.length / 2)).countP
          fun value => decide (bound ≤ value) := by
    conv_lhs =>
      rw [← List.take_append_drop (values.length / 2) sorted,
        List.countP_append, behind, Nat.add_zero]
  have front :=
    List.countP_le_length (p := fun value => decide (bound ≤ value))
      (l := sorted.take (values.length / 2))
  rw [List.length_take] at front
  omega

/-- The positions of the values from a bound on. -/
theorem card_reaching
    {values : List Nat}
    (length : values.length = n)
    (bound : Nat) :
    (Finset.univ.filter fun position : Fin n =>
        bound ≤ values.getD position 0).card =
      values.countP fun value => decide (bound ≤ value) := by
  have counted := card_positions
    (show (values.map fun value => decide (bound ≤ value)).length = n by
      rw [List.length_map, length])
    false true
  rw [List.count, List.countP_map] at counted
  refine Eq.trans (congrArg Finset.card ?_)
    (counted.trans (List.countP_congr fun value _ => ?_))
  · apply Finset.filter_congr
    intro position _
    have inside : (position : Nat) < values.length := by
      rw [length]
      exact position.isLt
    simp [List.getD_eq_getElem?_getD, inside]
  · simp

end

end NvmeofRaft
