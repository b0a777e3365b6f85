import Mathlib.Data.List.Sort
import NvmeofRaft.BinarySearch
import NvmeofRaft.ExtentMap

namespace NvmeofRaft

/-!
# The extent cache in machine words

`ExtentCache` of `blockio/cached_fd.cpp` with its signed offsets, unsigned
lengths and `int` indices.  A signed addition that would overflow wraps around
here, as do conversions to `int` and to `size_t`.
-/

namespace ExtentCache

/-- `Extent`. -/
structure Extent where
  logical : Int64 := 0
  physical : UInt64 := 0
  length : UInt64 := 0
  deriving Repr, DecidableEq

/-- `PBASegment`. -/
structure Segment where
  pba : UInt64
  len : UInt64
  deriving Repr, DecidableEq

/-- `logical + static_cast<int64_t>(length)`. -/
def Extent.extentEnd (extent : Extent) : Int64 :=
  extent.logical + extent.length.toInt64

/-- The test of the hinted path of `remaining_at`. -/
def Extent.covers
    (extent : Extent)
    (logical : Int64) :
    Bool :=
  decide (extent.logical ≤ logical) && decide (logical < extent.extentEnd)

/-- `static_cast<uint64_t>(logical - it->logical)`. -/
def Extent.intraOffset
    (extent : Extent)
    (logical : Int64) :
    UInt64 :=
  (logical - extent.logical).toUInt64

/-- `static_cast<size_t>(hint)`: a negative index becomes a huge one. -/
def sizeT (index : Int32) : Nat :=
  index.toInt64.toUInt64.toNat

end ExtentCache

/-- `ExtentCache`: its extents, by their logical start. -/
structure ExtentCache where
  extents : List ExtentCache.Extent
  deriving Repr, DecidableEq

namespace ExtentCache

/-- The comparison of `from_extents`. -/
def Extent.NotAfter (first second : Extent) : Prop :=
  first.logical ≤ second.logical

instance : DecidableRel Extent.NotAfter :=
  fun first second =>
    inferInstanceAs (Decidable (first.logical ≤ second.logical))

/-- `ExtentCache::from_extents`. -/
def fromExtents (extents : List Extent) : ExtentCache where
  extents := extents.insertionSort Extent.NotAfter

/-- The search of `lookup` and `remaining_at`. -/
def upperBound
    (cache : ExtentCache)
    (logical : Int64) :
    Nat :=
  NvmeofRaft.upperBound (fun extent => decide (logical < extent.logical))
    cache.extents

/-- `ExtentCache::lookup`. -/
def lookup
    (cache : ExtentCache)
    (logical : Int64)
    (length : UInt64) :
    Except Exn Segment :=
  let position := cache.upperBound logical
  if position = 0 then
    .error .noExtentCovers
  else
    let extent := cache.extents.getD (position - 1) {}
    if extent.extentEnd ≤ logical then
      .error .offsetPastExtent
    else
      let intraOffset := extent.intraOffset logical
      let available := extent.length - intraOffset
      .ok {
        pba := extent.physical + intraOffset
        len := if length < available then length else available }

/-- The binary search of `ExtentCache::remaining_at`. -/
def remainingAtSlow
    (cache : ExtentCache)
    (logical : Int64) :
    UInt64 × Int32 :=
  let position := cache.upperBound logical
  if position = 0 then
    (0, 0)
  else
    let extent := cache.extents.getD (position - 1) {}
    let index := Int32.ofNat (position - 1)
    if extent.extentEnd ≤ logical then
      (0, index)
    else
      (extent.length - extent.intraOffset logical, index)

/-- `ExtentCache::remaining_at`. -/
def remainingAt
    (cache : ExtentCache)
    (logical : Int64)
    (hint : Int32) :
    UInt64 × Int32 :=
  if 0 ≤ hint ∧ sizeT hint < cache.extents.length then
    let first := cache.extents.getD (sizeT hint) {}
    if first.covers logical then
      (first.length - first.intraOffset logical, hint)
    else if sizeT (hint + 1) < cache.extents.length then
      let second := cache.extents.getD (sizeT (hint + 1)) {}
      if second.covers logical then
        (second.length - second.intraOffset logical, hint + 1)
      else
        cache.remainingAtSlow logical
    else
      cache.remainingAtSlow logical
  else
    cache.remainingAtSlow logical

/-- The offset is one of the extent's. -/
def Extent.Holds
    (extent : Extent)
    (logical : Int64) : Prop :=
  extent.logical.toInt ≤ logical.toInt ∧
    logical.toInt < extent.logical.toInt + extent.length.toNat

/-- A positive length, and no end beyond what the types can express. -/
@[mk_iff]
structure Extent.Fits (extent : Extent) : Prop where
  positive : 0 < extent.length.toNat
  signed : extent.length.toNat < 2 ^ 63
  offsets : extent.logical.toInt + extent.length.toNat < 2 ^ 63
  addresses : extent.physical.toNat + extent.length.toNat ≤ 2 ^ 64

/-- The first extent ends where the second begins, or earlier. -/
def Extent.Before (first second : Extent) : Prop :=
  first.logical.toInt + first.length.toNat ≤ second.logical.toInt

/-- The extents do not overlap. -/
def Extent.Apart (first second : Extent) : Prop :=
  first.Before second ∨ second.Before first

instance : DecidablePred Extent.Fits :=
  fun extent => decidable_of_iff _ (extent.fits_iff).symm

instance : DecidableRel Extent.Apart :=
  fun first second =>
    inferInstanceAs (Decidable (
      first.logical.toInt + first.length.toNat ≤ second.logical.toInt ∨
        second.logical.toInt + second.length.toNat ≤ first.logical.toInt))

/-- The end of an extent does not wrap. -/
theorem Extent.Fits.extentEnd_toInt
    {extent : Extent}
    (fits : extent.Fits) :
    extent.extentEnd.toInt =
      extent.logical.toInt + extent.length.toNat := by
  have length : extent.length.toInt64.toInt = extent.length.toNat := by
    rw [← UInt64.ofNat_toNat (x := extent.length), UInt64.toInt64_ofNat',
      UInt64.ofNat_toNat]
    exact Int64.toInt_ofNat_of_lt fits.signed
  rw [Extent.extentEnd, Int64.toInt_add, length]
  have lower := extent.logical.le_toInt
  have upper := fits.offsets
  exact Int.bmod_eq_of_le (by omega) (by omega)

/-- An extent covers what it holds. -/
theorem Extent.Fits.covers_iff
    {extent : Extent}
    {logical : Int64}
    (fits : extent.Fits) :
    extent.covers logical = true ↔ extent.Holds logical := by
  rw [Extent.covers, Bool.and_eq_true, decide_eq_true_iff,
    decide_eq_true_iff, Int64.le_iff_toInt_le, Int64.lt_iff_toInt_lt,
    fits.extentEnd_toInt]
  rfl

theorem Extent.Fits.end_le_iff
    {extent : Extent}
    {logical : Int64}
    (fits : extent.Fits) :
    extent.extentEnd ≤ logical ↔
      extent.logical.toInt + extent.length.toNat ≤ logical.toInt := by
  rw [Int64.le_iff_toInt_le, fits.extentEnd_toInt]

section

variable {extent : Extent} {logical : Int64}
variable (fits : extent.Fits) (holds : extent.Holds logical)

include fits holds

/-- The offset inside an extent does not wrap. -/
theorem Extent.Fits.intraOffset_toNat :
    ((extent.intraOffset logical).toNat : Int) =
      logical.toInt - extent.logical.toInt := by
  have signed := fits.signed
  obtain ⟨lower, upper⟩ := holds
  have distance :
      (logical - extent.logical).toInt =
        logical.toInt - extent.logical.toInt := by
    rw [Int64.toInt_sub]
    exact Int.bmod_eq_of_le (by omega) (by omega)
  have forward : 0 ≤ logical - extent.logical := by
    rw [Int64.le_iff_toInt_le, distance, Int64.toInt_zero]
    omega
  rw [Extent.intraOffset, Int64.toNat_toUInt64_of_le forward,
    ← Int64.toNat_toInt, distance]
  omega

theorem Extent.Fits.bytes_toNat :
    ((extent.length - extent.intraOffset logical).toNat : Int) =
      extent.logical.toInt + extent.length.toNat - logical.toInt := by
  have intra := fits.intraOffset_toNat holds
  obtain ⟨lower, upper⟩ := holds
  rw [UInt64.toNat_sub_of_le]
  · omega
  · rw [UInt64.le_iff_toNat_le]
    omega

theorem Extent.Fits.pba_toNat :
    ((extent.physical + extent.intraOffset logical).toNat : Int) =
      extent.physical.toNat + (logical.toInt - extent.logical.toInt) := by
  have intra := fits.intraOffset_toNat holds
  have addresses := fits.addresses
  obtain ⟨lower, upper⟩ := holds
  rw [UInt64.toNat_add, Nat.mod_eq_of_lt (by omega)]
  omega

end

/-- The index of the hinted path is the position as an `int`. -/
theorem ofNat_sizeT
    (index : Int32) :
    Int32.ofNat (sizeT index) = index := by
  rw [← Int64.toInt32_ofNat', ← UInt64.toInt64_ofNat', sizeT,
    UInt64.ofNat_toNat, Int64.toInt64_toUInt64, Int32.toInt32_toInt64]

end ExtentCache

end NvmeofRaft
