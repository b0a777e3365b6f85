import Mathlib.Data.List.TakeWhile
import Mathlib.Data.List.Pairwise

namespace NvmeofRaft

/-!
# Binary search

The halving search of `std::upper_bound`, over any list and any test that
stays true once it is true: it finds where the test begins to hold.
-/

/--
The halving loop: `count` positions from `first` on are still open.  The bound
is the fuel, which the number of open positions never exceeds.
-/
def searchLoop
    (above : Nat → Bool) :
    Nat → Nat → Nat → Nat
  | 0, first, _ =>
      first
  | bound + 1, first, count =>
      if count = 0 then
        first
      else
        let half := count / 2
        if above (first + half) then
          searchLoop above bound first half
        else
          searchLoop above bound (first + half + 1) (count - half - 1)

/-- `std::upper_bound`: the position of the first item that is above. -/
def upperBound
    {Item : Type}
    (above : Item → Bool)
    (items : List Item) :
    Nat :=
  searchLoop (fun index => items[index]?.all above) items.length 0
    items.length

section

variable {above : Nat → Bool}
variable (stays :
  ∀ first second, first ≤ second → above first = true → above second = true)

include stays

/-- The loop ends inside its range, where the test begins to hold. -/
theorem searchLoop_splits
    {bound first count : Nat}
    (enough : count ≤ bound) :
    first ≤ searchLoop above bound first count ∧
      searchLoop above bound first count ≤ first + count ∧
      ∀ index, first ≤ index → index < first + count →
        (above index = true ↔
          searchLoop above bound first count ≤ index) := by
  induction bound generalizing first count with
  | zero =>
      obtain rfl := Nat.le_zero.mp enough
      exact ⟨le_refl _, le_refl _, fun index lower upper => by omega⟩
  | succ bound inductionHypothesis =>
      unfold searchLoop
      by_cases empty : count = 0
      · rw [if_pos empty]
        exact ⟨le_refl _, by omega, fun index lower upper => by omega⟩
      · rw [if_neg empty]
        dsimp only
        cases middle : above (first + count / 2) with
        | true =>
            -- Everything from the middle on is above as well.
            obtain ⟨lower, upper, splits⟩ :=
              @inductionHypothesis first (count / 2) (by omega)
            rw [if_pos rfl]
            refine ⟨lower, by omega, fun index start stop => ?_⟩
            by_cases inside : index < first + count / 2
            · exact splits index start inside
            · have holds := stays _ index (Nat.not_lt.mp inside) middle
              exact iff_of_true holds (by omega)
        | false =>
            -- Everything up to the middle is not above either.
            obtain ⟨lower, upper, splits⟩ :=
              @inductionHypothesis (first + count / 2 + 1)
                (count - count / 2 - 1) (by omega)
            rw [if_neg Bool.false_ne_true]
            refine ⟨by omega, by omega, fun index start stop => ?_⟩
            by_cases inside : first + count / 2 < index
            · exact splits index inside (by omega)
            · refine iff_of_false (fun holds => ?_) (by omega)
              have late := stays index _ (Nat.not_lt.mp inside) holds
              rw [middle] at late
              cases late

end

section

variable {Item : Type} {above : Item → Bool} {items : List Item}
variable (ordered :
  items.Pairwise fun first second => above first = true → above second = true)

include ordered

/-- The search finds where the items above begin. -/
theorem upperBound_splits :
    upperBound above items ≤ items.length ∧
      ∀ index item, items[index]? = some item →
        (above item = true ↔ upperBound above items ≤ index) := by
  have stays :
      ∀ first second : Nat, first ≤ second →
        (items[first]?.all above) = true →
        (items[second]?.all above) = true := by
    intro first second order holds
    cases found : items[second]? with
    | none =>
        rfl
    | some later =>
        obtain ⟨inside, same⟩ := List.getElem?_eq_some_iff.mp found
        rcases Nat.lt_or_eq_of_le order with before | rfl
        · have atFirst := List.getElem?_eq_getElem (before.trans inside)
          rw [atFirst] at holds
          have related :=
            List.pairwise_iff_getElem.mp ordered first second
              (before.trans inside) inside before
          rw [same] at related
          exact related holds
        · rw [found] at holds
          exact holds
  obtain ⟨-, upper, splits⟩ :=
    @searchLoop_splits _ stays items.length 0 items.length (le_refl _)
  rw [Nat.zero_add] at upper
  refine ⟨upper, fun index item found => ?_⟩
  obtain ⟨inside, -⟩ := List.getElem?_eq_some_iff.mp found
  have here := splits index (Nat.zero_le _) (by omega)
  rw [found] at here
  exact here

/-- The search finds the first item above. -/
theorem upperBound_eq_findIdx :
    upperBound above items = items.findIdx above := by
  obtain ⟨fits, splits⟩ := upperBound_splits ordered
  rcases Nat.lt_or_eq_of_le fits with inside | atEnd
  · refine ((List.findIdx_eq inside).mpr ⟨?_, fun index before => ?_⟩).symm
    · exact (splits _ _ (List.getElem?_eq_getElem inside)).mpr (le_refl _)
    · have here :=
        splits index _ (List.getElem?_eq_getElem (before.trans inside))
      exact Bool.eq_false_iff.mpr fun holds =>
        Nat.not_lt.mpr (here.mp holds) before
  · rw [atEnd, eq_comm, List.findIdx_eq_length]
    intro item held
    obtain ⟨index, found⟩ := List.getElem?_of_mem held
    obtain ⟨inside, -⟩ := List.getElem?_eq_some_iff.mp found
    exact Bool.eq_false_iff.mpr fun holds =>
      Nat.not_le.mpr (atEnd.symm ▸ inside) ((splits index item found).mp holds)

/-- What is in front of the upper bound is what a linear scan takes. -/
theorem take_upperBound :
    items.take (upperBound above items) =
      items.takeWhile fun item => !above item := by
  rw [List.takeWhile_eq_take_findIdx_not, upperBound_eq_findIdx ordered]
  simp only [Bool.not_not]

end

end NvmeofRaft
