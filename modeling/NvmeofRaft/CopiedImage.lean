import NvmeofRaft.CopyFootprint
import NvmeofRaft.Fabric
import NvmeofRaft.RingImage

namespace NvmeofRaft

/-!
# Block copies between contiguous rings

Between ring files of one extent each, a block copy that stays in front of the
ring end brings every byte to where it is in the source file.
-/

/-- The ring file is one extent from a device address on. -/
structure RingLayout.LiesAt
    (layout : RingLayout)
    (physical length : Nat) : Prop where
  extents : layout.extents = [{ logical := 0, physical, length }]
  holds : slotOffset layout.ringSlots ≤ length

namespace RingLayout.LiesAt

variable {layout : RingLayout} {physical length : Nat}

theorem contiguous
    (lies : layout.LiesAt physical length) :
    layout.Contiguous :=
  ⟨physical, length, lies.extents, lies.holds⟩

/-- The extent holds every byte of the file. -/
theorem covering
    (lies : layout.LiesAt physical length)
    {logical : Nat}
    (inside : logical < length) :
    coveringExtent layout.extents logical =
      some { logical := 0, physical, length } := by
  rw [lies.extents, coveringExtent, List.find?_singleton, if_pos]
  exact Extent.covers_iff.mpr ⟨Nat.zero_le _, by dsimp only; omega⟩

/-- The address of a byte of the file. -/
theorem physicalAt
    (lies : layout.LiesAt physical length)
    {logical : Nat}
    (inside : logical < length) :
    NvmeofRaft.physicalAt layout.extents logical =
      some (physical + logical) := by
  rw [NvmeofRaft.physicalAt, lies.covering inside]
  rfl

/-- The byte of the file at an address. -/
theorem logicalAt
    (lies : layout.LiesAt physical length)
    {logical : Nat}
    (inside : logical < length) :
    NvmeofRaft.logicalAt layout.extents (physical + logical) =
      some logical := by
  rw [NvmeofRaft.logicalAt, lies.extents, List.find?_singleton, if_pos]
  · simp
  · simp only [Bool.and_eq_true, decide_eq_true_eq]
    omega

theorem lookup
    (lies : layout.LiesAt physical length)
    {logical : Nat}
    (inside : logical < length)
    (bytes : Nat) :
    NvmeofRaft.lookup layout.extents logical bytes =
      .ok {
        pba := physical + logical
        len := min (length - logical) bytes } := by
  rw [lies.contiguous.tiles.lookup (lies.covering inside),
    bytesLeft_of_covering (lies.covering inside)]
  rfl

/-- The slots in front of the ring end are inside the extent. -/
theorem below
    (lies : layout.LiesAt physical length)
    {slot offset : Nat}
    (inRing : slot * sectorSize + offset < layout.ringSlots * sectorSize) :
    slotOffset slot + offset < length := by
  have holds := lies.holds
  unfold slotOffset at *
  omega

end RingLayout.LiesAt

/--
The chunks carry the bytes from `src` on, in their order, to the device
addresses from `dst` on.
-/
structure CarriesOn
    (src dst total : Nat)
    (chunks : List PbaChunk) : Prop where
  inside :
    ∀ chunk ∈ chunks,
      ∃ shift,
        shift + chunk.nbytes ≤ total ∧
          chunk.src = src + shift ∧ chunk.dst = dst + shift
  covers :
    ∀ byte < total, ∃ chunk ∈ chunks, chunk.Touches (dst + byte)

/-- A chunk in front of chunks that carry on behind it. -/
theorem CarriesOn.cons
    {src dst total : Nat}
    {chunk : PbaChunk}
    {rest : List PbaChunk}
    (carries :
      CarriesOn (src + chunk.nbytes) (dst + chunk.nbytes)
        (total - chunk.nbytes) rest)
    (fits : chunk.nbytes ≤ total)
    (source : chunk.src = src)
    (destination : chunk.dst = dst) :
    CarriesOn src dst total (chunk :: rest) := by
  refine ⟨fun other held => ?_, fun byte below => ?_⟩
  · rcases List.mem_cons.mp held with rfl | inRest
    · exact ⟨0, by omega, by omega, by omega⟩
    · obtain ⟨shift, inside, atSrc, atDst⟩ := carries.inside other inRest
      exact ⟨chunk.nbytes + shift, by omega, by omega, by omega⟩
  · by_cases first : byte < chunk.nbytes
    · exact ⟨chunk, List.mem_cons_self, by
        unfold PbaChunk.Touches
        omega⟩
    · obtain ⟨other, inRest, touches⟩ :=
        carries.covers (byte - chunk.nbytes) (by omega)
      have same :
          dst + chunk.nbytes + (byte - chunk.nbytes) = dst + byte := by
        omega
      exact ⟨other, List.mem_cons_of_mem _ inRest, same ▸ touches⟩

namespace RingLayout.LiesAt

variable {layout : RingLayout} {physical length : Nat}

/-- One chunk in front of the ring end: it starts at the slot. -/
theorem chunkAt
    (lies : layout.LiesAt physical length)
    {slot remaining pba nbytes : Nat}
    (some : remaining ≠ 0)
    (sectors : sectorSize ∣ remaining)
    (inRing : slot * sectorSize + remaining ≤ layout.ringSlots * sectorSize)
    (cut : layout.chunkAt slot remaining = .ok (pba, nbytes)) :
    pba = physical + slotOffset slot ∧ sectorSize ∣ nbytes := by
  have first : slotOffset slot < length := by
    have below := @RingLayout.LiesAt.below _ _ _ lies slot 0 (by omega)
    omega
  have last :=
    @RingLayout.LiesAt.below _ _ _ lies slot (remaining - 1) (by omega)
  have whole : min (length - slotOffset slot) remaining = remaining := by
    omega
  rw [RingLayout.chunkAt, lies.lookup first] at cut
  dsimp only at cut
  rw [whole] at cut
  split at cut
  · cases cut
  · split at cut
    · cases cut
    · simp only [Except.ok.injEq, Prod.mk.injEq] at cut
      obtain ⟨rfl, rfl⟩ := cut
      refine ⟨rfl, ?_⟩
      rw [Nat.min_self, Nat.min_def, Nat.min_def]
      have limit : sectorSize ∣ maxPbaCopyChunkBytes := by decide
      split_ifs
      · exact sectors
      · exact limit
      · exact Nat.dvd_mul_left _ _
      · exact limit

/-- The loop carries the bytes on, as far as it stays in front of the end. -/
theorem chunks
    (lies : layout.LiesAt physical length) :
    ∀ (remaining slot src : Nat) (list : List PbaChunk),
      sectorSize ∣ remaining →
      slot * sectorSize + remaining ≤ layout.ringSlots * sectorSize →
      layout.chunks remaining slot src = .ok list →
      CarriesOn src (physical + slotOffset slot) remaining list := by
  intro remaining
  induction remaining using Nat.strong_induction_on with
  | h remaining inductionHypothesis =>
      intro slot src list sectors inRing cut
      by_cases done : remaining = 0
      · subst done
        rw [chunks_zero] at cut
        cases cut
        exact ⟨fun _ held => absurd held List.not_mem_nil,
          fun _ below => absurd below (Nat.not_lt_zero _)⟩
      · have inside : slot < layout.ringSlots := by
          unfold sectorSize at inRing
          omega
        have wrapped : layout.wrap slot = slot :=
          if_neg (Nat.not_le.mpr inside)
        rw [chunks_step done, wrapped] at cut
        cases found : layout.chunkAt slot remaining with
        | error exn =>
            rw [found] at cut
            cases cut
        | ok chunk =>
            obtain ⟨pba, nbytes⟩ := chunk
            rw [found] at cut
            simp only [Except.bind] at cut
            cases rest :
                layout.chunks (remaining - nbytes)
                  (slot + nbytes / sectorSize) (src + nbytes) with
            | error exn =>
                rw [rest] at cut
                cases cut
            | ok later =>
                rw [rest] at cut
                cases cut
                obtain ⟨positive, fits⟩ := chunkAt_pos found
                obtain ⟨address, whole⟩ :=
                  lies.chunkAt done sectors inRing found
                have advance :
                    (slot + nbytes / sectorSize) * sectorSize =
                      slot * sectorSize + nbytes := by
                  rw [Nat.add_mul, Nat.div_mul_cancel whole]
                have goesOn := inductionHypothesis (remaining - nbytes)
                  (by omega) (slot + nbytes / sectorSize) (src + nbytes) later
                  (Nat.dvd_sub sectors whole) (by omega) rest
                have next :
                    physical + slotOffset (slot + nbytes / sectorSize) =
                      physical + slotOffset slot + nbytes := by
                  unfold slotOffset
                  omega
                rw [next] at goesOn
                exact goesOn.cons fits rfl address

/-- `do_pba_copy` in front of the ring end. -/
theorem doPbaCopy
    (lies : layout.LiesAt physical length)
    {src blocks slot : Nat}
    {list : List PbaChunk}
    (source : src ≠ 0)
    (inRing :
      slot * sectorSize + copyBytes blocks ≤ layout.ringSlots * sectorSize)
    (cut : layout.doPbaCopy src blocks slot = .ok list) :
    CarriesOn src (physical + slotOffset slot) (copyBytes blocks) list := by
  unfold RingLayout.doPbaCopy at cut
  split at cut
  · rename_i nothing
    have none : blocks = 0 := nothing.resolve_left source
    cases cut
    rw [none]
    exact ⟨fun _ held => absurd held List.not_mem_nil,
      fun _ below => absurd below (Nat.not_lt_zero _)⟩
  · exact lies.chunks _ _ _ _ (sectors_copyBytes blocks) inRing cut

end RingLayout.LiesAt

section

variable {n : Nat} {fabric : Fabric n} {member : Fin n}
variable {physical length : Nat}
variable
  (lies :
    (fabric.cluster.procs member).server.layout.LiesAt physical length)

include lies

/-- The ring file is on the volume where its extent is. -/
theorem Fabric.volume_at
    {logical : Nat}
    (inside : logical < length) :
    fabric.volume member (physical + logical) =
      (fabric.cluster.procs member).server.io.file logical := by
  have found :
      logicalAt (fabric.cluster.procs member).server.io.extents
        (physical + logical) = some logical :=
    lies.logicalAt inside
  simp only [Fabric.volume, found]

/-- A member's volume shows its ring file. -/
theorem Fabric.resolves
    (aligned : sectorSize ∣ physical) :
    (fabric.cluster.procs member).server.layout.Resolves
      (fabric.volume member)
      (fabric.cluster.procs member).server.io.file := by
  refine ⟨?_, ?_, ?_⟩
  · intro extent held
    rw [lies.extents, List.mem_singleton] at held
    rw [held]
    exact ⟨Nat.dvd_zero _, aligned⟩
  · intro slot inRing offset inSector
    refine ⟨_, lies.lookup (lies.below ?_) 1⟩
    unfold sectorSize at inSector ⊢
    omega
  · intro logical segment located
    obtain ⟨extent, found⟩ := covering_of_lookup located
    obtain ⟨held, covers⟩ := mem_of_coveringExtent found
    rw [lies.extents, List.mem_singleton] at held
    rw [held, Extent.covers_iff] at covers
    have inside : logical < length := by
      have ends := covers.2
      dsimp only at ends
      omega
    rw [lies.lookup inside, Except.ok.injEq] at located
    rw [← located]
    exact Fabric.volume_at lies inside

/-- What the file holds is read back from the volume. -/
theorem Fabric.loadFrom_holds
    (aligned : sectorSize ∣ physical)
    {entry : Entry}
    {logIdx start : Nat}
    (holds :
      HoldsEntry (fabric.cluster.procs member).server.io.file entry logIdx
        start)
    (inRing :
      start + entry.needed ≤
        (fabric.cluster.procs member).server.ring.ringSlots)
    (term : entry.term < 2 ^ 64)
    (short : entry.command.length < 2 ^ 64) :
    fabric.loadFrom member start = some entry.command := by
  have read := holds.readEntryDirect (Fabric.resolves lies aligned) inRing
    term short
  simp only [Fabric.loadFrom, read]

end

/-- Copying a chunk changes the ring file of its destination only. -/
theorem Fabric.copyChunk_others
    {n : Nat}
    (fabric : Fabric n)
    (srcDev : Nat)
    {dst member : Fin n}
    (chunk : PbaChunk)
    (other : member ≠ dst) :
    (fabric.copyChunk srcDev dst chunk).cluster.procs member =
      fabric.cluster.procs member :=
  Function.update_of_ne other _ _

theorem Fabric.copyChunk_self
    {n : Nat}
    (fabric : Fabric n)
    (srcDev : Nat)
    (dst : Fin n)
    (chunk : PbaChunk) :
    ∃ volume,
      (fabric.copyChunk srcDev dst chunk).cluster.procs dst =
        (fabric.cluster.procs dst).reread volume :=
  ⟨_, Function.update_self _ _ _⟩

section

variable {n : Nat} {fabric : Fabric n} {src dst : Fin n} {chunk : PbaChunk}
variable {srcAt srcLength dstAt dstLength shift : Nat}

/-- A chunk in its place brings the bytes of the source file. -/
theorem Fabric.copyChunk_file
    (source :
      (fabric.cluster.procs src).server.layout.LiesAt srcAt srcLength)
    (destination :
      (fabric.cluster.procs dst).server.layout.LiesAt dstAt dstLength)
    (inDestination : shift + chunk.nbytes ≤ dstLength)
    (fromSrc : chunk.src = srcAt + shift)
    (toDst : chunk.dst = dstAt + shift)
    {logical : Nat}
    (inSource : logical < srcLength) :
    ((fabric.copyChunk src dst chunk).cluster.procs dst).server.io.file
        logical =
      if shift ≤ logical ∧ logical < shift + chunk.nbytes then
        (fabric.cluster.procs src).server.io.file logical
      else
        (fabric.cluster.procs dst).server.io.file logical := by
  have image :
      (fabric.copyChunk src dst chunk).cluster.procs dst =
        (fabric.cluster.procs dst).reread
          ((fabric.devices.copyChunk src dst chunk) dst) :=
    Function.update_self _ _ _
  have devices : ∀ member : Fin n,
      fabric.devices member = fabric.volume member :=
    fun member => dif_pos member.isLt
  rw [image, Process.reread]
  dsimp only
  by_cases inside : logical < dstLength
  · have mapped :
        physicalAt (fabric.cluster.procs dst).server.io.extents logical =
          some (dstAt + logical) :=
      destination.physicalAt inside
    simp only [mapped]
    rw [copyChunk_apply, devices, devices]
    by_cases touched : shift ≤ logical ∧ logical < shift + chunk.nbytes
    · have address :
          chunk.src + (dstAt + logical - chunk.dst) = srcAt + logical := by
        omega
      rw [if_pos touched, if_pos ⟨by omega, by omega⟩, address]
      exact Fabric.volume_at source inSource
    · have outside : ¬ chunk.Touches (dstAt + logical) := by
        unfold PbaChunk.Touches
        omega
      rw [if_neg touched, if_neg outside]
      exact Fabric.volume_at destination inside
  · have unmapped :
        physicalAt (fabric.cluster.procs dst).server.io.extents logical =
          none := by
      have extents :
          (fabric.cluster.procs dst).server.io.extents =
            [{ logical := 0, physical := dstAt, length := dstLength }] :=
        destination.extents
      rw [physicalAt, extents, coveringExtent, List.find?_singleton, if_neg]
      · rfl
      · rw [Extent.covers_iff]
        dsimp only
        omega
    simp only [unmapped]
    rw [if_neg (by omega)]

end

end NvmeofRaft
