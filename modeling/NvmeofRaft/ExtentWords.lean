import NvmeofRaft.ExtentAgreement
import NvmeofRaft.ExtentBuild

namespace NvmeofRaft

/-!
# Extents as numbers and as words

`CachedFd` reads the extent map with natural numbers.  On the map of a file,
whose offsets and addresses are in their types, this is what the machine words
of `ExtentCache` compute.
-/

/-- The extent in the types of the source. -/
def Extent.words (extent : Extent) : ExtentCache.Extent where
  logical := Int64.ofNat extent.logical
  physical := UInt64.ofNat extent.physical
  length := UInt64.ofNat extent.length

/-- The segment in the types of the source. -/
def PbaSegment.words (segment : PbaSegment) : ExtentCache.Segment where
  pba := UInt64.ofNat segment.pba
  len := UInt64.ofNat segment.len

/-- The map in the types of the source. -/
def FileMap.words (map : FileMap) : ExtentCache where
  extents := map.extents.map Extent.words

/-- An extent that its words can hold. -/
structure Extent.InWords (extent : Extent) : Prop where
  positive : 0 < extent.length
  offsets : extent.logical + extent.length < 2 ^ 63
  addresses : extent.physical + extent.length ≤ 2 ^ 64

namespace Extent.InWords

variable {extent : Extent} (inWords : extent.InWords)

include inWords

/-- The file offset is in its word. -/
theorem logical_toInt :
    extent.words.logical.toInt = extent.logical :=
  Int64.toInt_ofNat_of_lt ((Nat.le_add_right _ _).trans_lt inWords.offsets)

theorem length_toNat :
    extent.words.length.toNat = extent.length := by
  have bound := inWords.offsets
  exact Nat.mod_eq_of_lt (by omega)

theorem physical_toNat :
    extent.words.physical.toNat = extent.physical := by
  have positive := inWords.positive
  have bound := inWords.addresses
  exact Nat.mod_eq_of_lt (by omega)

theorem fits : extent.words.Fits where
  positive := inWords.length_toNat.symm ▸ inWords.positive
  signed := by
    have bound := inWords.offsets
    rw [inWords.length_toNat]
    omega
  offsets := by
    have bound := inWords.offsets
    rw [inWords.logical_toInt, inWords.length_toNat]
    omega
  addresses := by
    rw [inWords.physical_toNat, inWords.length_toNat]
    exact inWords.addresses

section

variable {logical : Nat} (bound : logical < 2 ^ 63)

include bound

theorem starts_iff :
    Int64.ofNat logical < extent.words.logical ↔ logical < extent.logical := by
  rw [Int64.lt_iff_toInt_lt, inWords.logical_toInt,
    Int64.toInt_ofNat_of_lt bound]
  exact Int.ofNat_lt

theorem ends_iff :
    extent.words.extentEnd ≤ Int64.ofNat logical ↔
      extent.logical + extent.length ≤ logical := by
  rw [inWords.fits.end_le_iff, inWords.logical_toInt, inWords.length_toNat,
    Int64.toInt_ofNat_of_lt bound]
  exact Int.ofNat_le

/-- In words an extent holds what it covers in numbers. -/
theorem holds_iff :
    extent.words.Holds (Int64.ofNat logical) ↔
      extent.covers logical = true := by
  rw [ExtentCache.Extent.Holds, inWords.logical_toInt, inWords.length_toNat,
    Int64.toInt_ofNat_of_lt bound, Extent.covers_iff]
  omega

theorem covers_words :
    extent.words.covers (Int64.ofNat logical) = extent.covers logical :=
  Bool.eq_iff_iff.mpr
    (inWords.fits.covers_iff.trans (inWords.holds_iff bound))

/-- The bytes behind an offset, in words. -/
theorem bytes_words
    (covers : extent.covers logical = true) :
    extent.words.length - extent.words.intraOffset (Int64.ofNat logical) =
      UInt64.ofNat (extent.length - (logical - extent.logical)) := by
  have holds := (inWords.holds_iff bound).mpr covers
  have bytes := inWords.fits.bytes_toNat holds
  have offsets := inWords.offsets
  rw [inWords.logical_toInt, inWords.length_toNat,
    Int64.toInt_ofNat_of_lt bound] at bytes
  rw [Extent.covers_iff] at covers
  rw [← UInt64.toNat_inj, UInt64.toNat_ofNat', Nat.mod_eq_of_lt (by omega)]
  omega

/-- The address of an offset, in words. -/
theorem pba_words
    (covers : extent.covers logical = true) :
    extent.words.physical + extent.words.intraOffset (Int64.ofNat logical) =
      UInt64.ofNat (extent.physical + (logical - extent.logical)) := by
  have holds := (inWords.holds_iff bound).mpr covers
  have address := inWords.fits.pba_toNat holds
  have addresses := inWords.addresses
  rw [inWords.logical_toInt, inWords.physical_toNat,
    Int64.toInt_ofNat_of_lt bound] at address
  rw [Extent.covers_iff] at covers
  rw [← UInt64.toNat_inj, UInt64.toNat_ofNat', Nat.mod_eq_of_lt (by omega)]
  omega

end

end Extent.InWords

theorem takeWhile_congr
    {Item : Type}
    {first second : Item → Bool}
    {items : List Item}
    (same : ∀ item ∈ items, first item = second item) :
    items.takeWhile first = items.takeWhile second := by
  induction items with
  | nil =>
      rfl
  | cons item rest inductionHypothesis =>
      have later := inductionHypothesis fun other held =>
        same other (List.mem_cons_of_mem _ held)
      rw [List.takeWhile_cons, List.takeWhile_cons, later,
        same item List.mem_cons_self]

/-- Extents in order do not meet. -/
theorem InOrder.pairwise
    {start : Nat}
    {extents : List Extent}
    (inOrder : InOrder start extents) :
    extents.Pairwise fun first second =>
      first.logical + first.length ≤ second.logical := by
  induction extents generalizing start with
  | nil =>
      exact .nil
  | cons first rest inductionHypothesis =>
      obtain ⟨-, -, later⟩ := inOrder
      exact .cons (fun _ held => later.start_le held)
        (inductionHypothesis later)

theorem InOrder.positive
    {start : Nat}
    {extents : List Extent}
    {extent : Extent}
    (inOrder : InOrder start extents)
    (held : extent ∈ extents) :
    0 < extent.length := by
  induction extents generalizing start with
  | nil =>
      cases held
  | cons first rest inductionHypothesis =>
      obtain ⟨-, positive, later⟩ := inOrder
      rcases List.mem_cons.mp held with rfl | inRest
      · exact positive
      · exact inductionHypothesis later inRest

theorem sizeT_of_nonneg
    {index : Int32}
    (nonnegative : 0 ≤ index.toInt) :
    ExtentCache.sizeT index = index.toInt.toNat := by
  have wide : 0 ≤ index.toInt64 := by
    rw [Int64.le_iff_toInt_le, Int64.toInt_zero, Int32.toInt_toInt64]
    exact nonnegative
  rw [ExtentCache.sizeT, Int64.toNat_toUInt64_of_le wide,
    ← Int64.toNat_toInt, Int32.toInt_toInt64]

/-- The clamp of `lookup` is the minimum. -/
theorem ite_lt_ofNat
    {length available : Nat}
    (lengthBound : length < 2 ^ 64)
    (availableBound : available < 2 ^ 64) :
    (if UInt64.ofNat length < UInt64.ofNat available then
        UInt64.ofNat length
      else
        UInt64.ofNat available) =
      UInt64.ofNat (min available length) := by
  have shorter_iff :
      UInt64.ofNat length < UInt64.ofNat available ↔ length < available := by
    rw [UInt64.lt_iff_toNat_lt, UInt64.toNat_ofNat', UInt64.toNat_ofNat',
      Nat.mod_eq_of_lt lengthBound, Nat.mod_eq_of_lt availableBound]
  by_cases shorter : length < available
  · rw [if_pos (shorter_iff.mpr shorter),
      Nat.min_eq_right (Nat.le_of_lt shorter)]
  · rw [if_neg (mt shorter_iff.mp shorter),
      Nat.min_eq_left (Nat.not_lt.mp shorter)]

namespace FileMap

/-- The extents of a file are in their words. -/
theorem inWords
    (map : FileMap)
    {extent : Extent}
    (held : extent ∈ map.extents) :
    extent.InWords where
  positive := map.inOrder.positive held
  offsets := map.offsets extent held
  addresses := map.addresses extent held

/-- The words of a file's map are cached in file order. -/
theorem laid (map : FileMap) : map.words.Laid where
  fits := by
    intro extent held
    obtain ⟨number, inMap, rfl⟩ := List.mem_map.mp held
    exact (map.inWords inMap).fits
  ascending := by
    rw [FileMap.words, List.pairwise_map]
    refine map.inOrder.pairwise.imp_of_mem ?_
    intro first second heldFirst heldSecond order
    rw [ExtentCache.Extent.Before, (map.inWords heldFirst).logical_toInt,
      (map.inWords heldFirst).length_toNat,
      (map.inWords heldSecond).logical_toInt]
    exact Int.ofNat_le.mpr order

/-- A position of the map, in its types. -/
theorem getD_words
    (map : FileMap)
    {position : Nat}
    {extent : Extent}
    (found : map.extents[position]? = some extent) :
    map.words.extents.getD position {} = extent.words := by
  rw [List.getD_eq_getElem?_getD, FileMap.words, List.getElem?_map, found]
  rfl

/-- The last extent up to an offset covers it unless it ends before. -/
theorem covers_of_last
    (map : FileMap)
    {logical : Nat}
    {extent : Extent}
    (last : (extentsUpTo map.extents logical).getLast? = some extent)
    (inside : ¬ extent.logical + extent.length ≤ logical) :
    extent.covers logical = true := by
  have starts : extent.logical ≤ logical := by
    have taken := List.mem_of_getLast? last
    simpa using List.mem_takeWhile_imp taken
  exact Extent.covers_iff.mpr ⟨starts, Nat.not_le.mp inside⟩

section

variable (map : FileMap) {logical : Nat} (bound : logical < 2 ^ 63)

include bound

/-- The linear scan of the numbers takes what the binary search finds. -/
theorem upperBound_words :
    map.words.upperBound (Int64.ofNat logical) =
      (extentsUpTo map.extents logical).length := by
  have laid := map.laid
  obtain ⟨fits, -⟩ := laid.upperBound_splits (Int64.ofNat logical)
  have taken :=
    congrArg List.length
      (take_upperBound (laid.above_stays (Int64.ofNat logical)))
  rw [List.length_take] at taken
  have found := (Nat.min_eq_left fits).symm.trans taken
  have sameTest :
      ∀ extent ∈ map.extents,
        (!decide (Int64.ofNat logical < extent.words.logical)) =
          decide (extent.logical ≤ logical) := by
    intro extent held
    rw [← decide_not, decide_eq_decide,
      (map.inWords held).starts_iff bound, Nat.not_lt]
  rw [found, FileMap.words, List.takeWhile_map, List.length_map]
  exact congrArg List.length (takeWhile_congr sameTest)

/-- The last extent up to the offset, in its types. -/
theorem last_words
    {extent : Extent}
    (last : (extentsUpTo map.extents logical).getLast? = some extent) :
    extent ∈ map.extents ∧
      map.words.upperBound (Int64.ofNat logical) ≠ 0 ∧
        map.words.extents.getD
            (map.words.upperBound (Int64.ofNat logical) - 1) {} =
          extent.words := by
  have taken := List.mem_of_getLast? last
  have starts : 0 < (extentsUpTo map.extents logical).length :=
    List.length_pos_of_mem taken
  obtain ⟨rest, whole⟩ :
      extentsUpTo map.extents logical <+: map.extents :=
    List.takeWhile_prefix _
  rw [map.upperBound_words bound]
  generalize extentsUpTo map.extents logical = before at last starts whole ⊢
  rw [List.getLast?_eq_getElem?] at last
  have found : map.extents[before.length - 1]? = some extent := by
    rw [← last, ← whole]
    exact List.getElem?_append_left (Nat.sub_lt starts Nat.one_pos)
  exact ⟨List.mem_of_getElem? found, Nat.ne_of_gt starts, map.getD_words found⟩

/-- `ExtentCache::lookup` in numbers and in words. -/
theorem lookup_words
    (length : Nat)
    (lengthBound : length < 2 ^ 64) :
    map.words.lookup (Int64.ofNat logical) (UInt64.ofNat length) =
      (NvmeofRaft.lookup map.extents logical length).map
        PbaSegment.words := by
  unfold ExtentCache.lookup NvmeofRaft.lookup
  dsimp only
  cases last : (extentsUpTo map.extents logical).getLast? with
  | none =>
      have none_ : map.words.upperBound (Int64.ofNat logical) = 0 := by
        rw [map.upperBound_words bound, List.getLast?_eq_none_iff.mp last]
        rfl
      rw [if_pos none_]
      rfl
  | some extent =>
      obtain ⟨held, some_, same⟩ := map.last_words bound last
      have inWords := map.inWords held
      rw [if_neg some_, same]
      dsimp only
      by_cases past : extent.logical + extent.length ≤ logical
      · rw [if_pos past, if_pos ((inWords.ends_iff bound).mpr past)]
        rfl
      · have covers := map.covers_of_last last past
        have offsets := inWords.offsets
        rw [if_neg past, if_neg (mt (inWords.ends_iff bound).mp past),
          inWords.bytes_words bound covers, inWords.pba_words bound covers]
        rw [ite_lt_ofNat lengthBound (by omega)]
        rfl

/-- The binary search of `remaining_at` in numbers and in words. -/
theorem remainingAtSlow_words :
    map.words.remainingAtSlow (Int64.ofNat logical) =
      (UInt64.ofNat (NvmeofRaft.remainingAtSlow map.extents logical).1,
        Int32.ofInt (NvmeofRaft.remainingAtSlow map.extents logical).2) := by
  unfold ExtentCache.remainingAtSlow NvmeofRaft.remainingAtSlow
  dsimp only
  cases last : (extentsUpTo map.extents logical).getLast? with
  | none =>
      have none_ : map.words.upperBound (Int64.ofNat logical) = 0 := by
        rw [map.upperBound_words bound, List.getLast?_eq_none_iff.mp last]
        rfl
      rw [if_pos none_]
      rfl
  | some extent =>
      obtain ⟨held, some_, same⟩ := map.last_words bound last
      have inWords := map.inWords held
      have index :
          Int32.ofNat (map.words.upperBound (Int64.ofNat logical) - 1) =
            Int32.ofInt ((extentsUpTo map.extents logical).length - 1) := by
        rw [← Int32.ofInt_eq_ofNat]
        rw [map.upperBound_words bound] at some_ ⊢
        rw [Int.natCast_pred_of_pos (Nat.pos_of_ne_zero some_)]
      rw [if_neg some_, same, index]
      dsimp only
      by_cases past : extent.logical + extent.length ≤ logical
      · rw [if_pos past, if_pos ((inWords.ends_iff bound).mpr past)]
        rfl
      · rw [if_neg past, if_neg (mt (inWords.ends_iff bound).mp past),
          inWords.bytes_words bound (map.covers_of_last last past)]

/-- `ExtentCache::remaining_at` in numbers and in words. -/
theorem remainingAt_words
    (few : map.extents.length < 2 ^ 31)
    (hint : Int32) :
    map.words.remainingAt (Int64.ofNat logical) hint =
      (UInt64.ofNat (NvmeofRaft.remainingAt map.extents logical hint.toInt).1,
        Int32.ofInt
          (NvmeofRaft.remainingAt map.extents logical hint.toInt).2) := by
  have slow := map.remainingAtSlow_words bound
  have size : map.words.extents.length = map.extents.length :=
    List.length_map _
  unfold ExtentCache.remainingAt NvmeofRaft.remainingAt
  by_cases negative : hint.toInt < 0
  · rw [if_pos negative, if_neg, slow]
    rintro ⟨nonnegative, -⟩
    rw [Int32.le_iff_toInt_le, Int32.toInt_zero] at nonnegative
    omega
  have nonnegative : 0 ≤ hint := by
    rw [Int32.le_iff_toInt_le, Int32.toInt_zero]
    omega
  rw [if_neg negative, sizeT_of_nonneg (Int.not_lt.mp negative), size]
  cases found : map.extents[hint.toInt.toNat]? with
  | none =>
      have outside := List.getElem?_eq_none_iff.mp found
      rw [if_neg fun hinted => Nat.not_lt.mpr outside hinted.2, slow]
  | some first =>
      have inside := (List.getElem?_eq_some_iff.mp found).1
      have heldFirst := List.mem_of_getElem? found
      have inFirst := map.inWords heldFirst
      -- The second hint does not overflow on so few extents.
      have next : (hint + 1).toInt = hint.toInt + 1 := by
        rw [Int32.toInt_add, Int32.toInt_one]
        exact Int.bmod_eq_of_le (by omega) (by omega)
      have nextPosition :
          ExtentCache.sizeT (hint + 1) = hint.toInt.toNat + 1 := by
        rw [sizeT_of_nonneg (by omega), next]
        omega
      rw [if_pos ⟨nonnegative, inside⟩, map.getD_words found, nextPosition]
      dsimp only
      rw [inFirst.covers_words bound]
      cases covers : first.covers logical with
      | true =>
          rw [if_pos rfl, if_pos rfl, inFirst.bytes_words bound covers,
            Int32.ofInt_toInt]
      | false =>
          rw [if_neg Bool.false_ne_true, if_neg Bool.false_ne_true]
          cases foundNext : map.extents[hint.toInt.toNat + 1]? with
          | none =>
              have outside := List.getElem?_eq_none_iff.mp foundNext
              rw [if_neg (Nat.not_lt.mpr outside), slow]
          | some second =>
              have insideNext := (List.getElem?_eq_some_iff.mp foundNext).1
              have inSecond := map.inWords (List.mem_of_getElem? foundNext)
              rw [if_pos insideNext, map.getD_words foundNext,
                inSecond.covers_words bound]
              dsimp only
              cases coversNext : second.covers logical with
              | true =>
                  rw [if_pos rfl, if_pos rfl,
                    inSecond.bytes_words bound coversNext, ← next,
                    Int32.ofInt_toInt]
              | false =>
                  rw [if_neg Bool.false_ne_true, if_neg Bool.false_ne_true,
                    slow]

/-- What a lookup finds has an address and a length that words can hold. -/
theorem lookup_small
    {length : Nat}
    {segment : PbaSegment}
    (found :
      NvmeofRaft.lookup map.extents logical length = .ok segment) :
    segment.pba < 2 ^ 64 ∧ segment.len ≤ length := by
  unfold NvmeofRaft.lookup at found
  cases last : (extentsUpTo map.extents logical).getLast? with
  | none =>
      rw [last] at found
      cases found
  | some extent =>
      rw [last] at found
      dsimp only at found
      by_cases past : extent.logical + extent.length ≤ logical
      · rw [if_pos past] at found
        cases found
      · rw [if_neg past] at found
        cases found
        have inWords := map.inWords (map.last_words bound last).1
        have addresses := inWords.addresses
        have positive := inWords.positive
        dsimp only
        omega

end

/-- The bytes that are left in an extent fit in a word. -/
theorem remainingAt_small
    (map : FileMap)
    (logical : Nat)
    (hint : Int) :
    (NvmeofRaft.remainingAt map.extents logical hint).1 < 2 ^ 63 := by
  have each :
      ∀ extent ∈ map.extents,
        extent.length - (logical - extent.logical) < 2 ^ 63 := by
    intro extent held
    have offsets := map.offsets extent held
    omega
  have slow :
      (NvmeofRaft.remainingAtSlow map.extents logical).1 < 2 ^ 63 := by
    unfold NvmeofRaft.remainingAtSlow
    dsimp only
    split
    · exact Nat.two_pow_pos 63
    · rename_i extent last
      have held : extent ∈ map.extents :=
        (List.takeWhile_sublist _).mem (List.mem_of_getLast? last)
      split
      · exact Nat.two_pow_pos 63
      · exact each extent held
  unfold NvmeofRaft.remainingAt
  split
  · exact slow
  · split
    · exact slow
    · rename_i extent found
      split
      · exact each extent (List.mem_of_getElem? found)
      · split
        · exact slow
        · rename_i second foundNext
          split
          · exact each second (List.mem_of_getElem? foundNext)
          · exact slow

end FileMap

/--
The numbers of `CachedFd` are the words of `ExtentCache`: on the map of a file,
for every offset, length and hint, both find the same segment and the same
bytes left, and no result is too large for its word.
-/
theorem words_answer_as_numbers
    (map : FileMap)
    {logical length : Nat}
    (few : map.extents.length < 2 ^ 31)
    (offset : logical < 2 ^ 63)
    (size : length < 2 ^ 64)
    (hint : Int32) :
    map.words.lookup (Int64.ofNat logical) (UInt64.ofNat length) =
        (lookup map.extents logical length).map PbaSegment.words ∧
      (∀ segment,
        lookup map.extents logical length = .ok segment →
        segment.pba < 2 ^ 64 ∧ segment.len < 2 ^ 64) ∧
        map.words.remainingAt (Int64.ofNat logical) hint =
            (UInt64.ofNat (remainingAt map.extents logical hint.toInt).1,
              Int32.ofInt (remainingAt map.extents logical hint.toInt).2) ∧
          (remainingAt map.extents logical hint.toInt).1 < 2 ^ 64 := by
  refine ⟨map.lookup_words offset length size, ?_,
    map.remainingAt_words offset few hint, ?_⟩
  · intro segment found
    obtain ⟨address, short⟩ := map.lookup_small offset found
    exact ⟨address, short.trans_lt size⟩
  · exact (map.remainingAt_small logical hint.toInt).trans (by decide)

/-- A file in two extents whose second one ends at the last device address. -/
def lastAddresses : FileMap where
  extents :=
    [{ logical := 0, physical := 65536, length := 4096 },
     { logical := 4096, physical := 2 ^ 64 - 4096, length := 4096 }]
  inOrder := by decide
  offsets := by decide
  addresses := by decide

/-- The last byte of the file has the largest address. -/
theorem last_address_found :
    lastAddresses.words.lookup (Int64.ofNat 8191) (UInt64.ofNat 512) =
      .ok { pba := UInt64.ofNat (2 ^ 64 - 1), len := 1 } := by
  have found :
      lookup lastAddresses.extents 8191 512 =
        .ok { pba := 2 ^ 64 - 1, len := 1 } := by
    decide
  have few : lastAddresses.extents.length < 2 ^ 31 := by decide
  have words := (words_answer_as_numbers lastAddresses few
    (show 8191 < 2 ^ 63 by decide) (show 512 < 2 ^ 64 by decide) 0).1
  rw [found] at words
  exact words

end NvmeofRaft
