import NvmeofRaft.ExtentMap

namespace NvmeofRaft

/-!
# Building the extent map

`native_get_pba` and `ExtentCache::build` on a file that may have holes.  The
kernel answers a query with the first extent that intersects it.  In a hole that
extent begins behind the asked offset: the unsigned distance wraps around, and
the extent is cached as though it began at the offset.
-/

/-- Extents in file order: none is empty, none overlaps the one before. -/
def InOrder : Nat → List Extent → Prop
  | _, [] =>
      True
  | start, extent :: rest =>
      start ≤ extent.logical ∧ 0 < extent.length ∧
        InOrder (extent.logical + extent.length) rest

instance InOrder.decidable :
    ∀ (start : Nat) (extents : List Extent), Decidable (InOrder start extents)
  | _, [] =>
      .isTrue trivial
  | _, extent :: rest =>
      have := InOrder.decidable (extent.logical + extent.length) rest
      inferInstanceAs (Decidable (_ ∧ _ ∧ _))

/-- The mapping of a file, with file offsets and addresses in their types. -/
structure FileMap where
  extents : List Extent
  inOrder : InOrder 0 extents
  offsets : ∀ extent ∈ extents, extent.logical + extent.length < 2 ^ 63
  addresses : ∀ extent ∈ extents, extent.physical + extent.length ≤ 2 ^ 64

/-- The byte at the offset is on the device. -/
def FileMap.Maps
    (map : FileMap)
    (offset : Nat) : Prop :=
  ∃ extent ∈ map.extents, extent.covers offset = true

/-- `FS_IOC_FIEMAP` with one slot: the first extent in the range. -/
def FileMap.fiemap
    (map : FileMap)
    (start length : Nat) :
    Option Extent :=
  map.extents.find? fun extent =>
    decide (start < extent.logical + extent.length) &&
      decide (extent.logical < start + length)

/-- `native_get_pba`, with the wrap-around of its unsigned arithmetic. -/
def FileMap.nativeGetPba
    (map : FileMap)
    (logical length : Nat) :
    Option PbaSegment :=
  (map.fiemap logical length).map fun extent =>
    let intra := sub64 logical extent.logical
    { pba := (extent.physical + intra) % 2 ^ 64
      len := sub64 extent.length intra }

/-- The exceptions of `ExtentCache::build`. -/
def fiemapFailed (off : Nat) : String :=
  "BuildExtentCache: FIEMAP failed at offset " ++ toString off

def pbaZero (off : Nat) : String :=
  "BuildExtentCache: PBA=0 at offset " ++ toString off ++ " (hole in file)"

def zeroLengthExtent (off : Nat) : String :=
  "BuildExtentCache: zero-length extent at offset " ++ toString off

/-- The loop of `ExtentCache::build`, `none` when the fuel runs out. -/
def FileMap.buildLoop
    (map : FileMap)
    (fileSize : Nat) :
    Nat → Nat → List Extent → Option (Except String (List Extent))
  | 0, _, _ =>
      none
  | fuel + 1, off, cached =>
      if off < fileSize then
        match map.nativeGetPba off (fileSize - off) with
        | none =>
            some (.error (fiemapFailed off))
        | some segment =>
            if segment.pba = 0 then
              some (.error (pbaZero off))
            else if segment.len = 0 then
              some (.error (zeroLengthExtent off))
            else
              map.buildLoop fileSize fuel (off + segment.len)
                (cached ++
                  [{ logical := off
                     physical := segment.pba
                     length := segment.len }])
      else
        some (.ok cached)

/--
`ExtentCache::build`.  A negative size ends the loop at once, as zero does; a
round for every extent and the last test of the condition are enough.
-/
def FileMap.build
    (map : FileMap)
    (fileSize : Int) :
    Option (Except String (List Extent)) :=
  map.buildLoop fileSize.toNat (map.extents.length + 1) 0 []

section

variable {start off fileSize : Nat} {extent : Extent} {rest : List Extent}

/-- No extent begins in front of the start. -/
theorem InOrder.start_le
    (inOrder : InOrder start rest)
    (held : extent ∈ rest) :
    start ≤ extent.logical := by
  induction rest generalizing start with
  | nil =>
      cases held
  | cons first rest inductionHypothesis =>
      obtain ⟨behind, -, later⟩ := inOrder
      rcases List.mem_cons.mp held with rfl | inRest
      · exact behind
      · have further := inductionHypothesis later inRest
        omega

/-- What the loop caches, as one pass over the extents. -/
def cacheWalk
    (fileSize : Nat) :
    Nat → List Extent → Except String (List Extent)
  | off, [] =>
      if off < fileSize then .error (fiemapFailed off) else .ok []
  | off, extent :: rest =>
      if fileSize ≤ off then
        .ok []
      else if fileSize ≤ extent.logical then
        .error (fiemapFailed off)
      else if extent.physical = extent.logical - off then
        .error (pbaZero off)
      else
        (cacheWalk fileSize (extent.logical + extent.length) rest).map fun later =>
          { logical := off
            physical := sub64 extent.physical (extent.logical - off)
            length := extent.logical + extent.length - off } :: later

/-- A query that is answered with an extent at or behind the offset. -/
theorem segment_eq
    (notBehind : off ≤ extent.logical)
    (positive : 0 < extent.length)
    (offsets : extent.logical + extent.length < 2 ^ 63)
    (addresses : extent.physical + extent.length ≤ 2 ^ 64) :
    (extent.physical + sub64 off extent.logical) % 2 ^ 64 =
        sub64 extent.physical (extent.logical - off) ∧
      sub64 extent.length (sub64 off extent.logical) =
        extent.logical + extent.length - off := by
  unfold sub64
  split_ifs <;> omega

/-- The subtraction gives zero only for the hole's own size. -/
theorem sub64_eq_zero_iff
    {left right : Nat}
    (fits : right < 2 ^ 64) :
    sub64 left right = 0 ↔ left = right := by
  unfold sub64
  split_ifs <;> omega

/-- The query at the end of the walked extents finds the next one. -/
theorem FileMap.nativeGetPba_eq
    (map : FileMap)
    {done : List Extent}
    (split : map.extents = done ++ extent :: rest)
    (walked : ∀ earlier ∈ done, earlier.logical + earlier.length ≤ off)
    (inOrder : InOrder off (extent :: rest))
    (begins : extent.logical < fileSize)
    (goesOn : off < fileSize) :
    map.nativeGetPba off (fileSize - off) =
      some {
        pba := sub64 extent.physical (extent.logical - off)
        len := extent.logical + extent.length - off } := by
  obtain ⟨notBehind, positive, -⟩ := inOrder
  have held : extent ∈ map.extents := by
    rw [split]
    exact List.mem_append_right _ List.mem_cons_self
  obtain ⟨pba, len⟩ := segment_eq notBehind positive
    (map.offsets extent held) (map.addresses extent held)
  have answered :
      map.fiemap off (fileSize - off) = some extent := by
    rw [FileMap.fiemap, split, List.find?_append,
      List.find?_eq_none.mpr, Option.none_or, List.find?_cons_of_pos]
    · simp only [Bool.and_eq_true, decide_eq_true_eq]
      omega
    · intro earlier member
      have before := walked earlier member
      simp only [Bool.and_eq_true, decide_eq_true_eq]
      omega
  rw [FileMap.nativeGetPba, answered]
  simp only [Option.map_some, pba, len]

/-- Nothing is found when the next extent begins behind the range. -/
theorem FileMap.nativeGetPba_none
    (map : FileMap)
    {done : List Extent}
    (split : map.extents = done ++ rest)
    (walked : ∀ earlier ∈ done, earlier.logical + earlier.length ≤ off)
    (beyond : ∀ later ∈ rest, fileSize ≤ later.logical)
    (goesOn : off < fileSize) :
    map.nativeGetPba off (fileSize - off) = none := by
  rw [FileMap.nativeGetPba, FileMap.fiemap, Option.map_eq_none_iff,
    List.find?_eq_none, split]
  intro other held
  simp only [Bool.and_eq_true, decide_eq_true_eq]
  rcases List.mem_append.mp held with earlier | later
  · have before := walked other earlier
    omega
  · have behind := beyond other later
    omega

/-- With enough fuel the loop ends, and caches what the walk caches. -/
theorem FileMap.buildLoop_eq
    (map : FileMap) :
    ∀ {rest done : List Extent} {off fuel : Nat} {cached : List Extent},
      map.extents = done ++ rest →
      (∀ earlier ∈ done, earlier.logical + earlier.length ≤ off) →
      InOrder off rest →
      rest.length < fuel →
      map.buildLoop fileSize fuel off cached =
        some ((cacheWalk fileSize off rest).map (cached ++ ·)) := by
  intro rest
  induction rest with
  | nil =>
      intro done off fuel cached split walked _ enough
      obtain ⟨fuel, rfl⟩ := Nat.exists_eq_add_of_lt enough
      rw [cacheWalk, FileMap.buildLoop]
      split_ifs with goesOn
      · rw [map.nativeGetPba_none split walked (fun _ none => by cases none)
          goesOn]
        rfl
      · simp [Except.map]
  | cons extent rest inductionHypothesis =>
      intro done off fuel cached split walked inOrder enough
      obtain ⟨fuel, rfl⟩ : ∃ less, fuel = less + 1 :=
        ⟨fuel - 1, by omega⟩
      rw [cacheWalk, FileMap.buildLoop]
      by_cases goesOn : off < fileSize
      · rw [if_pos goesOn, if_neg (Nat.not_le.mpr goesOn)]
        by_cases begins : extent.logical < fileSize
        · rw [if_neg (Nat.not_le.mpr begins),
            map.nativeGetPba_eq split walked inOrder begins goesOn]
          obtain ⟨notBehind, positive, later⟩ := inOrder
          have held : extent ∈ map.extents := by
            rw [split]
            exact List.mem_append_right _ List.mem_cons_self
          have offsets := map.offsets extent held
          have zero := @sub64_eq_zero_iff extent.physical
            (extent.logical - off) (by omega)
          dsimp only
          by_cases hidden : extent.physical = extent.logical - off
          · rw [if_pos (zero.mpr hidden), if_pos hidden]
            rfl
          · rw [if_neg (fun none => hidden (zero.mp none)), if_neg hidden,
              if_neg (by omega),
              show off + (extent.logical + extent.length - off) =
                extent.logical + extent.length by omega]
            rw [@inductionHypothesis (done ++ [extent]) _ _ _
              (by rw [split, List.append_assoc]; rfl) ?_ later
              (by rw [List.length_cons] at enough; omega)]
            · cases cacheWalk fileSize (extent.logical + extent.length)
                rest with
              | error message => rfl
              | ok walk => simp [Except.map]
            · intro earlier member
              rcases List.mem_append.mp member with before | last
              · have ends := walked earlier before
                omega
              · rw [List.mem_singleton.mp last]
        · rw [if_pos (Nat.not_lt.mp begins),
            map.nativeGetPba_none split walked ?_ goesOn]
          · rfl
          · intro later member
            rcases List.mem_cons.mp member with rfl | inRest
            · exact Nat.not_lt.mp begins
            · have behind := inOrder.2.2.start_le inRest
              omega
      · rw [if_neg goesOn, if_pos (Nat.not_lt.mp goesOn)]
        simp [Except.map]

/-- `build` walks over the extents of the file. -/
theorem FileMap.build_eq
    (map : FileMap)
    (fileSize : Int) :
    map.build fileSize = some (cacheWalk fileSize.toNat 0 map.extents) := by
  rw [FileMap.build, map.buildLoop_eq (List.nil_append _).symm
    (fun _ none => by cases none) map.inOrder (Nat.lt_succ_self _)]
  cases cacheWalk fileSize.toNat 0 map.extents <;> rfl

end

/-- The extents with the sizes of the holes in front of them. -/
def withHoles : Nat → List Extent → List (Nat × Extent)
  | _, [] =>
      []
  | start, extent :: rest =>
      (extent.logical - start, extent) ::
        withHoles (extent.logical + extent.length) rest

theorem mem_of_withHoles
    {start hole : Nat}
    {extents : List Extent}
    {extent : Extent}
    (held : (hole, extent) ∈ withHoles start extents) :
    extent ∈ extents := by
  induction extents generalizing start with
  | nil =>
      cases held
  | cons first rest inductionHypothesis =>
      rcases List.mem_cons.mp held with same | later
      · cases same
        exact List.mem_cons_self
      · exact List.mem_cons_of_mem _ (inductionHypothesis later)

/-- The walk throws at a hole up to the end, or at an address that is zero. -/
theorem cacheWalk_throws_iff
    {fileSize off : Nat}
    {extents : List Extent}
    (inOrder : InOrder off extents) :
    (∃ message, cacheWalk fileSize off extents = .error message) ↔
      (off < fileSize ∧
          ∀ extent ∈ extents, ¬ extent.covers (fileSize - 1) = true) ∨
        ∃ hole extent,
          (hole, extent) ∈ withHoles off extents ∧
            extent.logical < fileSize ∧ extent.physical = hole := by
  induction extents generalizing off with
  | nil =>
      rw [cacheWalk]
      split_ifs with goesOn
      · exact ⟨fun _ => Or.inl ⟨goesOn, fun _ none => by cases none⟩,
          fun _ => ⟨_, rfl⟩⟩
      · constructor
        · rintro ⟨_, impossible⟩
          cases impossible
        · rintro (⟨goesOn', -⟩ | ⟨_, _, none, -⟩)
          · exact absurd goesOn' goesOn
          · cases none
  | cons extent rest inductionHypothesis =>
      obtain ⟨notBehind, positive, later⟩ := inOrder
      have inOrder : InOrder off (extent :: rest) :=
        ⟨notBehind, positive, later⟩
      rw [cacheWalk]
      split_ifs with ended behind hidden
      · constructor
        · rintro ⟨_, impossible⟩
          cases impossible
        · rintro (⟨goesOn, -⟩ | ⟨_, other, held, begins, -⟩)
          · omega
          · have start := inOrder.start_le (mem_of_withHoles held)
            omega
      · refine ⟨fun _ => Or.inl ⟨by omega, fun other held covers => ?_⟩,
          fun _ => ⟨_, rfl⟩⟩
        rw [Extent.covers_iff] at covers
        rcases List.mem_cons.mp held with rfl | inRest
        · omega
        · have further := later.start_le inRest
          omega
      · exact ⟨fun _ => Or.inr ⟨_, extent, List.mem_cons_self,
          Nat.not_le.mp behind, hidden⟩, fun _ => ⟨_, rfl⟩⟩
      · have mapped :
            (∃ message,
              (cacheWalk fileSize (extent.logical + extent.length) rest).map
                  (fun later =>
                    { logical := off
                      physical := sub64 extent.physical (extent.logical - off)
                      length := extent.logical + extent.length - off } ::
                      later) = .error message) ↔
              ∃ message,
                cacheWalk fileSize (extent.logical + extent.length) rest =
                  .error message := by
          cases cacheWalk fileSize (extent.logical + extent.length) rest with
          | error message => exact ⟨fun _ => ⟨_, rfl⟩, fun _ => ⟨_, rfl⟩⟩
          | ok walk =>
              constructor <;>
              · rintro ⟨_, impossible⟩
                cases impossible
        rw [mapped, inductionHypothesis later]
        have last :
            ¬ extent.covers (fileSize - 1) = true ↔
              extent.logical + extent.length < fileSize := by
          rw [Extent.covers_iff]
          omega
        simp only [withHoles, List.mem_cons, forall_eq_or_imp, Prod.mk.injEq,
          last]
        constructor
        · rintro (⟨goesOn, unmapped⟩ | ⟨hole, other, held, zero⟩)
          · exact Or.inl ⟨by omega, goesOn, unmapped⟩
          · exact Or.inr ⟨hole, other, Or.inr held, zero⟩
        · rintro (⟨-, goesOn, unmapped⟩ |
            ⟨hole, other, ⟨rfl, rfl⟩ | held, begins, zero⟩)
          · exact Or.inl ⟨goesOn, unmapped⟩
          · exact absurd zero hidden
          · exact Or.inr ⟨hole, other, held, begins, zero⟩

/-- What the walk caches follows without a gap, over holes too. -/
theorem cacheWalk_tiles
    {fileSize off : Nat}
    {extents cached : List Extent}
    (inOrder : InOrder off extents)
    (walked : cacheWalk fileSize off extents = .ok cached) :
    Tiles off cached := by
  induction extents generalizing off cached with
  | nil =>
      rw [cacheWalk] at walked
      split_ifs at walked with goesOn
      cases walked
      trivial
  | cons extent rest inductionHypothesis =>
      obtain ⟨notBehind, positive, later⟩ := inOrder
      rw [cacheWalk] at walked
      split_ifs at walked with ended behind hidden
      · cases walked
        trivial
      · cases found :
            cacheWalk fileSize (extent.logical + extent.length) rest with
        | error message =>
            rw [found] at walked
            cases walked
        | ok tail =>
            rw [found] at walked
            cases walked
            have tiled := inductionHypothesis later found
            have next : off + (extent.logical + extent.length - off) =
                extent.logical + extent.length := by
              omega
            exact ⟨rfl, by dsimp only; omega, next.symm ▸ tiled⟩

/-- Without a hole it caches the extents of the file. -/
theorem cacheWalk_of_mapped
    {fileSize off : Nat}
    {extents cached : List Extent}
    (inOrder : InOrder off extents)
    (mapped :
      ∀ offset, off ≤ offset → offset < fileSize →
        ∃ extent ∈ extents, extent.covers offset = true)
    (walked : cacheWalk fileSize off extents = .ok cached) :
    (∀ extent ∈ cached, extent ∈ extents) ∧
      ∀ offset, off ≤ offset → offset < fileSize →
        ∃ extent ∈ cached, extent.covers offset = true := by
  induction extents generalizing off cached with
  | nil =>
      rw [cacheWalk] at walked
      split_ifs at walked with goesOn
      cases walked
      exact ⟨fun _ none => none,
        fun offset notBefore inside => absurd inside (by omega)⟩
  | cons extent rest inductionHypothesis =>
      obtain ⟨notBehind, positive, later⟩ := inOrder
      rw [cacheWalk] at walked
      split_ifs at walked with ended behind hidden
      · cases walked
        exact ⟨fun _ none => absurd none List.not_mem_nil,
          fun offset notBefore inside => absurd inside (by omega)⟩
      · cases found :
            cacheWalk fileSize (extent.logical + extent.length) rest with
        | error message =>
            rw [found] at walked
            cases walked
        | ok tail =>
            rw [found] at walked
            cases walked
            -- The byte at the offset is mapped, so no hole is skipped.
            have begins : extent.logical = off := by
              obtain ⟨first, held, covers⟩ :=
                mapped off (le_refl off) (by omega)
              rw [Extent.covers_iff] at covers
              rcases List.mem_cons.mp held with rfl | inRest
              · omega
              · have further := later.start_le inRest
                omega
            have same :
                ({ logical := off
                   physical := sub64 extent.physical (extent.logical - off)
                   length := extent.logical + extent.length - off } :
                  Extent) = extent := by
              subst begins
              rw [Nat.sub_self, sub64_of_le (Nat.zero_le _),
                Nat.add_sub_cancel_left]
              rfl
            obtain ⟨held, covered⟩ := inductionHypothesis later
              (fun offset notBefore inside => by
                obtain ⟨other, held, covers⟩ :=
                  mapped offset (by omega) inside
                rcases List.mem_cons.mp held with rfl | inRest
                · rw [Extent.covers_iff] at covers
                  omega
                · exact ⟨other, inRest, covers⟩) found
            rw [same]
            refine ⟨?_, ?_⟩
            · intro other member
              rcases List.mem_cons.mp member with rfl | inTail
              · exact List.mem_cons_self
              · exact List.mem_cons_of_mem _ (held other inTail)
            · intro offset notBefore inside
              by_cases inFirst : offset < extent.logical + extent.length
              · exact ⟨extent, List.mem_cons_self,
                  Extent.covers_iff.mpr ⟨by omega, inFirst⟩⟩
              · obtain ⟨other, inTail, covers⟩ :=
                  covered offset (by omega) inside
                exact ⟨other, List.mem_cons_of_mem _ inTail, covers⟩

/--
The cache is right: a lookup answers every byte of the file with its address
and a length inside its extent.
-/
def FileMap.Right
    (map : FileMap)
    (fileSize : Int)
    (cached : List Extent) : Prop :=
  ∀ offset length : Nat,
    (offset : Int) < fileSize →
    ∃ segment,
      lookup cached offset length = .ok segment ∧
        ∃ extent ∈ map.extents,
          extent.covers offset = true ∧
            segment.pba = extent.physical + (offset - extent.logical) ∧
              offset + segment.len ≤ extent.logical + extent.length

/-- `ExtentCache::build` throws or returns a cache that is right. -/
def FileMap.BuildsRight
    (map : FileMap)
    (fileSize : Int) : Prop :=
  (∃ message, map.build fileSize = some (.error message)) ∨
    ∃ cached,
      map.build fileSize = some (.ok cached) ∧ map.Right fileSize cached

/-- A cache of extents of the file that tile it is right. -/
theorem FileMap.right_of_tiles
    {map : FileMap}
    {fileSize : Int}
    {cached : List Extent}
    (tiled : Tiles 0 cached)
    (held : ∀ extent ∈ cached, extent ∈ map.extents)
    (covered :
      ∀ offset, offset < fileSize.toNat →
        ∃ extent ∈ cached, extent.covers offset = true) :
    map.Right fileSize cached := by
  intro offset length inside
  obtain ⟨extent, member, covers⟩ := covered offset (by omega)
  have found := tiled.covering member covers
  refine ⟨_, tiled.lookup found length, extent, held extent member, covers,
    rfl, ?_⟩
  rw [bytesLeft_of_covering found]
  rw [Extent.covers_iff] at covers
  dsimp only
  omega

/--
Start-up on a file with holes: `ExtentCache::build` throws or returns a cache
that is right exactly when every byte of the file is mapped, or its last byte is
not, or some extent has an address equal to the size of the hole in front of it.
-/
theorem build_right_iff
    (map : FileMap)
    (fileSize : Int) :
    map.BuildsRight fileSize ↔
      (∀ offset : Nat, (offset : Int) < fileSize → map.Maps offset) ∨
        (0 < fileSize ∧ ¬ map.Maps (fileSize.toNat - 1)) ∨
          ∃ hole extent,
            (hole, extent) ∈ withHoles 0 map.extents ∧
              (extent.logical : Int) < fileSize ∧
                extent.physical = hole := by
  have throws := @cacheWalk_throws_iff fileSize.toNat 0 map.extents
    map.inOrder
  have unmapped :
      (0 < fileSize.toNat ∧
          ∀ extent ∈ map.extents,
            ¬ extent.covers (fileSize.toNat - 1) = true) ↔
        0 < fileSize ∧ ¬ map.Maps (fileSize.toNat - 1) := by
    simp only [FileMap.Maps, not_exists, not_and]
    exact and_congr_left fun _ => by omega
  have begins :
      ∀ extent : Extent,
        extent.logical < fileSize.toNat ↔
          (extent.logical : Int) < fileSize := by
    intro extent
    omega
  rw [unmapped] at throws
  simp only [begins] at throws
  rw [← throws, FileMap.BuildsRight]
  simp only [map.build_eq, Option.some.injEq]
  constructor
  · rintro (error | ⟨cached, walked, right⟩)
    · exact Or.inr error
    · refine Or.inl fun offset inside => ?_
      obtain ⟨_, -, extent, held, covers, -⟩ := right offset 0 inside
      exact ⟨extent, held, covers⟩
  · rintro (mapped | error)
    · cases walked : cacheWalk fileSize.toNat 0 map.extents with
      | error message =>
          exact Or.inl ⟨message, rfl⟩
      | ok cached =>
          obtain ⟨held, covered⟩ :=
            cacheWalk_of_mapped map.inOrder
              (fun offset _ inside => mapped offset (by omega)) walked
          exact Or.inr ⟨cached, rfl, FileMap.right_of_tiles
            (cacheWalk_tiles map.inOrder walked) held
            fun offset inside => covered offset (Nat.zero_le _) inside⟩
    · exact Or.inl error

/-- A file of three blocks with a hole in the middle one. -/
def sparseFile : FileMap where
  extents :=
    [{ logical := 0, physical := 4096, length := 4096 },
     { logical := 8192, physical := 16384, length := 4096 }]
  inOrder := by decide
  offsets := by decide
  addresses := by decide

/-- The hole is cached as the eight kilobytes that end with the last block. -/
theorem sparse_file_is_cached :
    ¬ ∀ (map : FileMap) (fileSize : Int), map.BuildsRight fileSize := by
  intro builds
  have cached :
      sparseFile.build 12288 =
        some (.ok
          [{ logical := 0, physical := 4096, length := 4096 },
           { logical := 4096, physical := 12288, length := 8192 }]) := by
    decide +kernel
  rcases builds sparseFile 12288 with ⟨message, threw⟩ | ⟨_, _, right⟩
  · rw [cached] at threw
    cases threw
  · obtain ⟨_, -, extent, held, covers, -⟩ := right 4096 1 (by decide)
    have hole : ∀ extent ∈ sparseFile.extents,
        extent.covers 4096 = false := by
      decide
    rw [hole extent held] at covers
    cases covers

end NvmeofRaft
