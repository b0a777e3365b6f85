import NvmeofRaft.ExtentCache

namespace NvmeofRaft

/-!
# Agreement of the extent lookups

On extents that do not overlap, at most one position holds an offset.  The
hinted path and both binary searches of `ExtentCache` end there, or they all
find that no extent holds the offset.
-/

namespace ExtentCache

instance : Std.Total Extent.NotAfter where
  total first second := by
    rw [Extent.NotAfter, Extent.NotAfter, Int64.le_iff_toInt_le,
      Int64.le_iff_toInt_le]
    exact le_total _ _

instance : IsTrans Extent Extent.NotAfter where
  trans first second third := by
    rw [Extent.NotAfter, Extent.NotAfter, Extent.NotAfter,
      Int64.le_iff_toInt_le, Int64.le_iff_toInt_le, Int64.le_iff_toInt_le]
    exact le_trans

/-- Extents in file order that fit their types and do not overlap. -/
structure Laid (cache : ExtentCache) : Prop where
  fits : ∀ extent ∈ cache.extents, extent.Fits
  ascending : cache.extents.Pairwise Extent.Before

theorem mem_fromExtents
    {extents : List Extent}
    {extent : Extent} :
    extent ∈ (fromExtents extents).extents ↔ extent ∈ extents :=
  (List.perm_insertionSort _ extents).mem_iff

theorem Extent.Apart.symm
    {first second : Extent}
    (apart : first.Apart second) :
    second.Apart first :=
  Or.symm apart

/-- Of two separate extents, the one that starts first ends first. -/
theorem Extent.Apart.ends
    {first second : Extent}
    (apart : first.Apart second)
    (fits : second.Fits)
    (order : first.NotAfter second) :
    first.Before second := by
  have positive := fits.positive
  rw [Extent.NotAfter, Int64.le_iff_toInt_le] at order
  rcases apart with before | after
  · exact before
  · rw [Extent.Before] at after
    omega

/-- However the separate extents came in, they are cached in file order. -/
theorem laid_of_sorted
    {extents sorted : List Extent}
    (fits : ∀ extent ∈ extents, extent.Fits)
    (apart : extents.Pairwise Extent.Apart)
    (same : sorted.Perm extents)
    (order : sorted.Pairwise Extent.NotAfter) :
    Laid { extents := sorted } where
  fits := fun extent held => fits extent (same.mem_iff.mp held)
  ascending := by
    have separate : sorted.Pairwise Extent.Apart :=
      (same.pairwise_iff Extent.Apart.symm).mpr apart
    refine (order.and separate).imp_of_mem fun {first second} _ held both => ?_
    exact both.2.ends (fits second (same.mem_iff.mp held)) both.1

/-- Separate extents are laid one behind the other by sorting. -/
theorem laid_fromExtents
    {extents : List Extent}
    (fits : ∀ extent ∈ extents, extent.Fits)
    (apart : extents.Pairwise Extent.Apart) :
    (fromExtents extents).Laid :=
  laid_of_sorted fits apart (List.perm_insertionSort _ extents)
    (List.pairwise_insertionSort _ extents)

/-- An unstable sort of separate extents has one result only. -/
theorem fromExtents_eq
    {extents sorted : List Extent}
    (fits : ∀ extent ∈ extents, extent.Fits)
    (apart : extents.Pairwise Extent.Apart)
    (same : sorted.Perm extents)
    (order : sorted.Pairwise Extent.NotAfter) :
    sorted = (fromExtents extents).extents := by
  have laid := laid_of_sorted fits apart same order
  have other := laid_fromExtents fits apart
  refine List.Perm.eq_of_pairwise ?_ laid.ascending other.ascending
    (same.trans (List.perm_insertionSort _ extents).symm)
  intro first second held _ before after
  have positive := (laid.fits first held).positive
  rw [Extent.Before] at before after
  omega

namespace Laid

variable {cache : ExtentCache}

/-- No two extents hold one offset. -/
theorem position_unique
    (laid : cache.Laid)
    {logical : Int64}
    {first second : Nat}
    {atFirst atSecond : Extent}
    (foundFirst : cache.extents[first]? = some atFirst)
    (foundSecond : cache.extents[second]? = some atSecond)
    (holdsFirst : atFirst.Holds logical)
    (holdsSecond : atSecond.Holds logical) :
    first = second := by
  obtain ⟨insideFirst, rfl⟩ := List.getElem?_eq_some_iff.mp foundFirst
  obtain ⟨insideSecond, rfl⟩ := List.getElem?_eq_some_iff.mp foundSecond
  have order := List.pairwise_iff_getElem.mp laid.ascending
  obtain ⟨lowerFirst, upperFirst⟩ := holdsFirst
  obtain ⟨lowerSecond, upperSecond⟩ := holdsSecond
  rcases Nat.lt_trichotomy first second with before | same | after
  · have apart := order first second insideFirst insideSecond before
    rw [Extent.Before] at apart
    omega
  · exact same
  · have apart := order second first insideSecond insideFirst after
    rw [Extent.Before] at apart
    omega

/-- Behind an extent that starts above an offset all others do. -/
theorem above_stays
    (laid : cache.Laid)
    (logical : Int64) :
    cache.extents.Pairwise fun first second =>
      decide (logical < first.logical) = true →
        decide (logical < second.logical) = true := by
  refine laid.ascending.imp fun {first second} before => ?_
  rw [Extent.Before] at before
  rw [decide_eq_true_iff, decide_eq_true_iff, Int64.lt_iff_toInt_lt,
    Int64.lt_iff_toInt_lt]
  omega

/-- The search splits the extents at the offset. -/
theorem upperBound_splits
    (laid : cache.Laid)
    (logical : Int64) :
    cache.upperBound logical ≤ cache.extents.length ∧
      ∀ index extent, cache.extents[index]? = some extent →
        (logical.toInt < extent.logical.toInt ↔
          cache.upperBound logical ≤ index) := by
  obtain ⟨fits, splits⟩ :=
    NvmeofRaft.upperBound_splits (laid.above_stays logical)
  refine ⟨fits, fun index extent found => ?_⟩
  have here := splits index extent found
  rw [decide_eq_true_iff, Int64.lt_iff_toInt_lt] at here
  exact here

section

variable (laid : cache.Laid)
variable {logical : Int64} {index : Nat} {extent : Extent}
variable (found : cache.extents[index]? = some extent)
variable (holds : extent.Holds logical)

include laid found holds

/-- The search ends behind the extent that holds the offset. -/
theorem upperBound_of_holds :
    cache.upperBound logical = index + 1 := by
  obtain ⟨within, splits⟩ := laid.upperBound_splits logical
  obtain ⟨inside, atIndex⟩ := List.getElem?_eq_some_iff.mp found
  obtain ⟨lower, upper⟩ := holds
  have behind := splits index extent found
  by_cases last : index + 1 < cache.extents.length
  · have next := splits (index + 1) _ (List.getElem?_eq_getElem last)
    have order :=
      List.pairwise_iff_getElem.mp laid.ascending index (index + 1) inside last
        (Nat.lt_succ_self index)
    rw [atIndex, Extent.Before] at order
    have reached := next.mp (by omega)
    omega
  · omega

/-- Inside an extent the rest of it remains. -/
theorem remainingAtSlow_of_holds :
    cache.remainingAtSlow logical =
      (extent.length - extent.intraOffset logical, Int32.ofNat index) := by
  have fits := laid.fits extent (List.mem_of_getElem? found)
  have notPast : ¬ extent.extentEnd ≤ logical := by
    rw [fits.end_le_iff]
    exact not_le.mpr holds.2
  rw [remainingAtSlow, laid.upperBound_of_holds found holds,
    if_neg (Nat.succ_ne_zero index), Nat.add_sub_cancel,
    List.getD_eq_getElem?_getD, found]
  exact if_neg notPast

/-- Inside an extent the address is found. -/
theorem lookup_of_holds
    (length : UInt64) :
    cache.lookup logical length =
      .ok {
        pba := extent.physical + extent.intraOffset logical
        len :=
          if length < extent.length - extent.intraOffset logical then
            length
          else
            extent.length - extent.intraOffset logical } := by
  have fits := laid.fits extent (List.mem_of_getElem? found)
  have notPast : ¬ extent.extentEnd ≤ logical := by
    rw [fits.end_le_iff]
    exact not_le.mpr holds.2
  rw [lookup, laid.upperBound_of_holds found holds,
    if_neg (Nat.succ_ne_zero index), Nat.add_sub_cancel,
    List.getD_eq_getElem?_getD, found]
  exact if_neg notPast

/-- A hinted extent that covers the offset is the extent of the offset. -/
theorem hinted
    {hint : Int32}
    (inside : sizeT hint < cache.extents.length)
    (covers :
      (cache.extents.getD (sizeT hint) {}).covers logical = true) :
    cache.extents.getD (sizeT hint) {} = extent ∧
      hint = Int32.ofNat index := by
  have here := List.getElem?_eq_getElem inside
  rw [List.getD_eq_getElem?_getD, here, Option.getD_some] at covers ⊢
  have fits := laid.fits _ (List.mem_of_getElem? here)
  have same :=
    laid.position_unique here found (fits.covers_iff.mp covers) holds
  obtain rfl := same
  exact ⟨Option.some_inj.mp (here.symm.trans found), (ofNat_sizeT hint).symm⟩

/-- Every hint leads to the extent of the offset. -/
theorem remainingAt_of_holds
    (hint : Int32) :
    cache.remainingAt logical hint =
      (extent.length - extent.intraOffset logical, Int32.ofNat index) := by
  have slow := laid.remainingAtSlow_of_holds found holds
  unfold remainingAt
  split
  · rename_i hinted
    dsimp only
    split
    · rename_i covers
      obtain ⟨same, rfl⟩ := laid.hinted found holds hinted.2 covers
      rw [same]
    · split
      · rename_i next
        split
        · rename_i covers
          obtain ⟨same, position⟩ := laid.hinted found holds next covers
          rw [same, position]
        · exact slow
      · exact slow
  · exact slow

end

section

variable (laid : cache.Laid)
variable {logical : Int64}
variable (gap : ∀ extent ∈ cache.extents, ¬ extent.Holds logical)

include laid gap

/-- The extent in front of an offset in a gap ends in front of it. -/
theorem past_of_gap
    (some_ : cache.upperBound logical ≠ 0) :
    (cache.extents.getD (cache.upperBound logical - 1) {}).extentEnd ≤
      logical := by
  obtain ⟨within, splits⟩ := laid.upperBound_splits logical
  have inside : cache.upperBound logical - 1 < cache.extents.length := by
    omega
  have here := List.getElem?_eq_getElem inside
  have starts := splits _ _ here
  have held := List.mem_of_getElem? here
  have notHeld := gap _ held
  rw [List.getD_eq_getElem?_getD, here, Option.getD_some,
    (laid.fits _ held).end_le_iff]
  rw [Extent.Holds] at notHeld
  omega

/-- In a gap nothing remains. -/
theorem remainingAtSlow_of_gap :
    (cache.remainingAtSlow logical).1 = 0 := by
  unfold remainingAtSlow
  dsimp only
  split
  · rfl
  · rename_i some_
    rw [if_pos (laid.past_of_gap gap some_)]

/-- In a gap the lookup throws. -/
theorem lookup_of_gap
    (length : UInt64) :
    ∃ exn, cache.lookup logical length = .error exn := by
  unfold lookup
  dsimp only
  split
  · exact ⟨_, rfl⟩
  · rename_i some_
    exact ⟨_, if_pos (laid.past_of_gap gap some_)⟩

theorem covers_of_gap
    {index : Nat}
    (inside : index < cache.extents.length) :
    (cache.extents.getD index {}).covers logical = false := by
  have here := List.getElem?_eq_getElem inside
  have held := List.mem_of_getElem? here
  rw [List.getD_eq_getElem?_getD, here, Option.getD_some]
  exact Bool.eq_false_iff.mpr fun covers =>
    gap _ held ((laid.fits _ held).covers_iff.mp covers)

/-- No hint finds an extent in a gap. -/
theorem remainingAt_of_gap
    (hint : Int32) :
    (cache.remainingAt logical hint).1 = 0 := by
  have slow := laid.remainingAtSlow_of_gap gap
  unfold remainingAt
  split
  · rename_i hinted
    dsimp only
    rw [laid.covers_of_gap gap hinted.2, if_neg Bool.false_ne_true]
    split
    · rename_i next
      rw [laid.covers_of_gap gap next, if_neg Bool.false_ne_true]
      exact slow
    · exact slow
  · exact slow

end

/-- The answers at an offset that an extent holds. -/
theorem answers_of_holds
    (laid : cache.Laid)
    {logical : Int64}
    {extent : Extent}
    (held : extent ∈ cache.extents)
    (holds : extent.Holds logical) :
    ∃ count index,
      (count.toNat : Int) =
          extent.logical.toInt + extent.length.toNat - logical.toInt ∧
        (∀ hint, cache.remainingAt logical hint = (count, index)) ∧
        ∀ length, ∃ segment,
          cache.lookup logical length = .ok segment ∧
            (segment.pba.toNat : Int) =
              extent.physical.toNat +
                (logical.toInt - extent.logical.toInt) ∧
            segment.len.toNat = min length.toNat count.toNat := by
  obtain ⟨index, found⟩ := List.getElem?_of_mem held
  have fits := laid.fits extent held
  refine ⟨_, _, fits.bytes_toNat holds,
    laid.remainingAt_of_holds found holds, fun length => ?_⟩
  refine ⟨_, laid.lookup_of_holds found holds length,
    fits.pba_toNat holds, ?_⟩
  dsimp only
  split
  · rename_i shorter
    rw [UInt64.lt_iff_toNat_lt] at shorter
    exact (Nat.min_eq_left (Nat.le_of_lt shorter)).symm
  · rename_i notShorter
    rw [UInt64.lt_iff_toNat_lt] at notShorter
    exact (Nat.min_eq_right (Nat.not_lt.mp notShorter)).symm

/-- Only one extent holds an offset. -/
theorem holder_unique
    (laid : cache.Laid)
    {logical : Int64}
    {first second : Extent}
    (heldFirst : first ∈ cache.extents)
    (heldSecond : second ∈ cache.extents)
    (holdsFirst : first.Holds logical)
    (holdsSecond : second.Holds logical) :
    first = second := by
  obtain ⟨index, found⟩ := List.getElem?_of_mem heldFirst
  obtain ⟨other, foundOther⟩ := List.getElem?_of_mem heldSecond
  have same :=
    laid.position_unique found foundOther holdsFirst holdsSecond
  rw [same] at found
  exact Option.some_inj.mp (found.symm.trans foundOther)

end Laid

/--
Whatever the hint, `remaining_at` answers as without one; `lookup` throws
where no byte remains, and else answers with the extent that holds the offset.
-/
theorem lookups_agree
    {extents : List Extent}
    (fits : ∀ extent ∈ extents, extent.Fits)
    (apart : extents.Pairwise Extent.Apart)
    (logical : Int64) :
    let cache := fromExtents extents
    let count := (cache.remainingAt logical (-1)).1
    (∀ hint,
        (cache.remainingAt logical hint).1 = count ∧
          (count ≠ 0 →
            (cache.remainingAt logical hint).2 =
              (cache.remainingAt logical (-1)).2)) ∧
      ∀ length,
        ((∃ exn, cache.lookup logical length = .error exn) ↔ count = 0) ∧
          (count ≠ 0 →
            ∃ extent ∈ extents,
              extent.Holds logical ∧
                (∀ other ∈ extents, other.Holds logical → other = extent) ∧
                ∃ segment,
                  cache.lookup logical length = .ok segment ∧
                    (segment.pba.toNat : Int) =
                      extent.physical.toNat +
                        (logical.toInt - extent.logical.toInt) ∧
                    segment.len.toNat = min length.toNat count.toNat) := by
  intro cache
  have laid : cache.Laid := laid_fromExtents fits apart
  by_cases covered : ∃ extent ∈ extents, extent.Holds logical
  · obtain ⟨extent, given, holds⟩ := covered
    have held : extent ∈ cache.extents := mem_fromExtents.mpr given
    obtain ⟨count, index, bytes, remaining, located⟩ :=
      laid.answers_of_holds held holds
    rw [remaining]
    have some_ : count ≠ 0 := by
      rintro rfl
      have inside := holds.2
      rw [UInt64.toNat_zero] at bytes
      omega
    refine ⟨fun hint => ⟨by rw [remaining], fun _ => by rw [remaining]⟩,
      fun length => ?_⟩
    obtain ⟨segment, answers, address, bytesRead⟩ := located length
    refine ⟨iff_of_false ?_ some_, fun _ => ?_⟩
    · rintro ⟨exn, throws⟩
      rw [answers] at throws
      cases throws
    · refine ⟨extent, given, holds, fun other givenOther holdsOther => ?_,
        segment, answers, address, bytesRead⟩
      exact laid.holder_unique (mem_fromExtents.mpr givenOther) held holdsOther
        holds
  · have gap : ∀ extent ∈ cache.extents, ¬ extent.Holds logical :=
      fun extent held holds =>
        covered ⟨extent, mem_fromExtents.mp held, holds⟩
    have remaining := laid.remainingAt_of_gap gap
    rw [remaining]
    refine ⟨fun hint => ⟨remaining hint, fun some_ => (some_ rfl).elim⟩,
      fun length => ⟨iff_of_true (laid.lookup_of_gap gap length) rfl,
        fun some_ => (some_ rfl).elim⟩⟩

/-- Three extents in no order, with a gap in front of the last. -/
def shuffledExtents : List Extent := [
  { logical := 12288, physical := 300000, length := 4096 },
  { logical := 0, physical := 100000, length := 4096 },
  { logical := 4096, physical := 200000, length := 4096 } ]

theorem shuffledExtents_agree :
    (fromExtents shuffledExtents).remainingAt 4608 0 = (3584, 1) ∧
      (fromExtents shuffledExtents).lookup 4608 512 =
        .ok { pba := 200512, len := 512 } ∧
      (fromExtents shuffledExtents).lookup 8192 512 =
        .error .offsetPastExtent ∧
      ∀ hint,
        ((fromExtents shuffledExtents).remainingAt 4608 hint).1 =
          ((fromExtents shuffledExtents).remainingAt 4608 (-1)).1 :=
  ⟨by decide, by decide, by decide, fun hint =>
    ((lookups_agree (by decide) (by decide) 4608).1 hint).1⟩

end ExtentCache

end NvmeofRaft
