import Mathlib.Data.List.TakeWhile
import NvmeofRaft.CachedFd

namespace NvmeofRaft

/-!
# Tiled extent maps

On a file whose extents follow each other without a gap, every offset has at
most one extent, so the search with a hint and the binary search of
`ExtentCache` find the same one, and addresses run on up to its end.
-/

/-- The extents follow each other from `start` on. -/
def Tiles : Nat → List Extent → Prop
  | _, [] =>
      True
  | start, extent :: rest =>
      extent.logical = start ∧
        0 < extent.length ∧ Tiles (start + extent.length) rest

instance Tiles.decidable :
    ∀ (start : Nat) (extents : List Extent), Decidable (Tiles start extents)
  | _, [] =>
      .isTrue trivial
  | start, extent :: rest =>
      have := Tiles.decidable (start + extent.length) rest
      inferInstanceAs (Decidable (_ ∧ _ ∧ _))

/-- The extent of an offset. -/
def coveringExtent
    (extents : List Extent)
    (logical : Nat) :
    Option Extent :=
  extents.find? fun extent => extent.covers logical

/-- The bytes from an offset to the end of its extent. -/
def bytesLeft
    (extents : List Extent)
    (logical : Nat) :
    Nat :=
  match coveringExtent extents logical with
  | some extent => extent.length - (logical - extent.logical)
  | none => 0

/-- An extent covers its offsets up to its end. -/
theorem Extent.covers_iff
    {extent : Extent}
    {logical : Nat} :
    extent.covers logical = true ↔
      extent.logical ≤ logical ∧
        logical < extent.logical + extent.length := by
  simp [Extent.covers]

/-- No tile begins in front of the first one. -/
theorem Tiles.start_le
    {start : Nat}
    {extents : List Extent}
    {extent : Extent}
    (tiled : Tiles start extents)
    (held : extent ∈ extents) :
    start ≤ extent.logical := by
  induction extents generalizing start with
  | nil =>
      cases held
  | cons first rest inductionHypothesis =>
      obtain ⟨atStart, -, later⟩ := tiled
      rcases List.mem_cons.mp held with rfl | inRest
      · exact le_of_eq atStart.symm
      · have behind := inductionHypothesis later inRest
        omega

/-- An extent that covers an offset is the extent of the offset. -/
theorem Tiles.covering
    {start logical : Nat}
    {extents : List Extent}
    {extent : Extent}
    (tiled : Tiles start extents)
    (held : extent ∈ extents)
    (covers : extent.covers logical = true) :
    coveringExtent extents logical = some extent := by
  induction extents generalizing start with
  | nil =>
      cases held
  | cons first rest inductionHypothesis =>
      obtain ⟨atStart, -, later⟩ := tiled
      rcases List.mem_cons.mp held with rfl | inRest
      · exact List.find?_cons_of_pos covers
      · have behind := later.start_le inRest
        have before : ¬ first.covers logical = true := by
          rw [Extent.covers_iff] at covers ⊢
          omega
        have found := inductionHypothesis later inRest
        unfold coveringExtent at found ⊢
        rw [List.find?_cons, eq_false_of_ne_true before]
        exact found

/-- The extent that is found is one of the extents and covers the offset. -/
theorem mem_of_coveringExtent
    {extents : List Extent}
    {logical : Nat}
    {extent : Extent}
    (found : coveringExtent extents logical = some extent) :
    extent ∈ extents ∧ extent.covers logical = true := by
  unfold coveringExtent at found
  exact ⟨List.mem_of_find?_eq_some found, by simpa using List.find?_some found⟩

/-- The extent of an offset is the last one that starts up to it. -/
theorem Tiles.upTo_last
    {start logical : Nat}
    {extents : List Extent}
    {extent : Extent}
    (tiled : Tiles start extents)
    (found : coveringExtent extents logical = some extent) :
    (extentsUpTo extents logical).getLast? = some extent := by
  obtain ⟨held, covers⟩ := mem_of_coveringExtent found
  rw [Extent.covers_iff] at covers
  clear found
  induction extents generalizing start with
  | nil =>
      cases held
  | cons first rest inductionHypothesis =>
      obtain ⟨atStart, -, later⟩ := tiled
      rcases List.mem_cons.mp held with rfl | inRest
      · -- What follows the extent starts behind the offset.
        have stops : extentsUpTo rest logical = [] := by
          cases rest with
          | nil =>
              rfl
          | cons second others =>
              have behind : ¬ second.logical ≤ logical := by
                have := later.1
                omega
              simp [extentsUpTo, behind]
        have taken : extentsUpTo (extent :: rest) logical = [extent] := by
          rw [extentsUpTo, List.takeWhile_cons_of_pos (by simp [covers.1])]
          exact congrArg (extent :: ·) stops
        rw [taken, List.getLast?_singleton]
      · have behind := later.start_le inRest
        have before : first.logical ≤ logical := by omega
        have ends := inductionHypothesis later inRest
        rw [extentsUpTo, List.takeWhile_cons_of_pos (by simp [before]),
          List.getLast?_cons]
        show some ((extentsUpTo rest logical).getLast?.getD first) = _
        rw [ends]
        rfl

/-- Without an extent of the offset, the last one up to it ends before it. -/
theorem upTo_last_ends
    {extents : List Extent}
    {logical : Nat}
    {extent : Extent}
    (uncovered : coveringExtent extents logical = none)
    (last : (extentsUpTo extents logical).getLast? = some extent) :
    extent.logical + extent.length ≤ logical := by
  have taken := List.mem_of_getLast? last
  have starts : extent.logical ≤ logical := by
    simpa using List.mem_takeWhile_imp taken
  have held : extent ∈ extents :=
    (List.takeWhile_sublist _).mem taken
  have uncovers := List.find?_eq_none.mp uncovered extent held
  rw [Extent.covers_iff] at uncovers
  omega

theorem Tiles.remainingAtSlow
    {start : Nat}
    {extents : List Extent}
    (tiled : Tiles start extents)
    (logical : Nat) :
    (remainingAtSlow extents logical).1 = bytesLeft extents logical := by
  unfold NvmeofRaft.remainingAtSlow bytesLeft
  cases found : coveringExtent extents logical with
  | some extent =>
      obtain ⟨-, covers⟩ := mem_of_coveringExtent found
      rw [Extent.covers_iff] at covers
      simp only [tiled.upTo_last found]
      rw [if_neg (Nat.not_le.mpr covers.2)]
  | none =>
      cases last : (extentsUpTo extents logical).getLast? with
      | none =>
          simp only [last]
      | some extent =>
          simp only [last, if_pos (upTo_last_ends found last)]

/-- The hint does not change the answer of `remaining_at`. -/
theorem Tiles.remainingAt
    {start : Nat}
    {extents : List Extent}
    (tiled : Tiles start extents)
    (logical : Nat)
    (hint : Int) :
    (remainingAt extents logical hint).1 = bytesLeft extents logical := by
  have slow := tiled.remainingAtSlow logical
  have hinted :
      ∀ (index : Nat) (extent : Extent),
        extents[index]? = some extent →
        extent.covers logical = true →
        extent.length - (logical - extent.logical) =
          bytesLeft extents logical := by
    intro index extent found covers
    rw [bytesLeft, tiled.covering (List.mem_of_getElem? found) covers]
  unfold NvmeofRaft.remainingAt
  split
  · exact slow
  · split
    · exact slow
    · rename_i first found
      split
      · rename_i covers
        exact hinted _ _ found covers
      · split
        · exact slow
        · rename_i second foundSecond
          split
          · rename_i covers
            exact hinted _ _ foundSecond covers
          · exact slow

/-- `ExtentCache::lookup` answers with the extent of the offset. -/
theorem Tiles.lookup
    {start logical : Nat}
    {extents : List Extent}
    {extent : Extent}
    (tiled : Tiles start extents)
    (found : coveringExtent extents logical = some extent)
    (length : Nat) :
    lookup extents logical length =
      .ok {
        pba := extent.physical + (logical - extent.logical)
        len := min (bytesLeft extents logical) length } := by
  obtain ⟨-, covers⟩ := mem_of_coveringExtent found
  rw [Extent.covers_iff] at covers
  unfold NvmeofRaft.lookup
  simp only [tiled.upTo_last found]
  rw [if_neg (Nat.not_le.mpr covers.2), bytesLeft, found]

/-- A lookup that answers has found the extent of the offset. -/
theorem covering_of_lookup
    {extents : List Extent}
    {logical length : Nat}
    {segment : PbaSegment}
    (located : lookup extents logical length = .ok segment) :
    ∃ extent, coveringExtent extents logical = some extent := by
  cases found : coveringExtent extents logical with
  | some extent =>
      exact ⟨extent, rfl⟩
  | none =>
      unfold lookup at located
      cases last : (extentsUpTo extents logical).getLast? with
      | none =>
          rw [last] at located
          cases located
      | some extent =>
          simp only [last, if_pos (upTo_last_ends found last)] at located
          cases located

/-- The bytes left are those up to the end of the covering extent. -/
theorem bytesLeft_of_covering
    {extents : List Extent}
    {logical : Nat}
    {extent : Extent}
    (found : coveringExtent extents logical = some extent) :
    bytesLeft extents logical =
      extent.length - (logical - extent.logical) := by
  rw [bytesLeft, found]

/-- Bytes in front of the end of an extent are in the same extent. -/
theorem Tiles.covering_add
    {start logical byte : Nat}
    {extents : List Extent}
    {extent : Extent}
    (tiled : Tiles start extents)
    (found : coveringExtent extents logical = some extent)
    (inside : byte < bytesLeft extents logical) :
    coveringExtent extents (logical + byte) = some extent := by
  obtain ⟨held, covers⟩ := mem_of_coveringExtent found
  rw [Extent.covers_iff] at covers
  rw [bytesLeft_of_covering found] at inside
  refine tiled.covering held (Extent.covers_iff.mpr ?_)
  omega

/-- The distance to the end of the extent shrinks along the extent. -/
theorem Tiles.bytesLeft_add
    {start logical byte : Nat}
    {extents : List Extent}
    (tiled : Tiles start extents)
    (inside : byte < bytesLeft extents logical) :
    bytesLeft extents (logical + byte) = bytesLeft extents logical - byte := by
  cases found : coveringExtent extents logical with
  | some extent =>
      obtain ⟨-, covers⟩ := mem_of_coveringExtent found
      rw [Extent.covers_iff] at covers
      rw [bytesLeft_of_covering (tiled.covering_add found inside),
        bytesLeft_of_covering found]
      omega
  | none =>
      rw [bytesLeft, found] at inside
      cases inside

/-- Along an extent, device addresses run on with file offsets. -/
theorem Tiles.lookup_add
    {start logical length byte : Nat}
    {extents : List Extent}
    {segment : PbaSegment}
    (tiled : Tiles start extents)
    (located : NvmeofRaft.lookup extents logical length = .ok segment)
    (inside : byte < bytesLeft extents logical) :
    NvmeofRaft.lookup extents (logical + byte) 1 =
      .ok { pba := segment.pba + byte, len := 1 } := by
  obtain ⟨extent, found⟩ := covering_of_lookup located
  obtain ⟨-, covers⟩ := mem_of_coveringExtent found
  rw [Extent.covers_iff] at covers
  rw [tiled.lookup found, Except.ok.injEq] at located
  rw [tiled.lookup (tiled.covering_add found inside),
    tiled.bytesLeft_add inside, ← located]
  have address :
      extent.physical + (logical + byte - extent.logical) =
        extent.physical + (logical - extent.logical) + byte := by
    omega
  rw [address, Nat.min_eq_right (Nat.sub_pos_of_lt inside)]

end NvmeofRaft
