import Mathlib.Order.Monotone.Basic
import NvmeofRaft.Rounds
import NvmeofRaft.SlotChain

namespace NvmeofRaft

/-!
# What a data-bearing request describes

`append_entries_worker` names a batch by its first slot and a slot count, and
its bytes by one device address.  The clamp at the end of the leader's extent
rounds the bytes that are left in it up to whole pages, while slots start one
sector behind a page boundary; a round that this rounding lets through
describes bytes behind the extent.
-/

/-- The slots that `count` entries from an index on take together. -/
def Server.slotsOfRange
    (server : Server)
    (next : Nat) :
    Nat → Nat
  | 0 =>
      0
  | count + 1 =>
      server.slotsOfRange next count + server.slotsForLogIndex (next + count)

/-- The slots of a range are read entry by entry. -/
theorem slotsOfRange_congr
    {first second : Server}
    (same :
      ∀ logIdx,
        first.slotsForLogIndex logIdx = second.slotsForLogIndex logIdx)
    (next : Nat) :
    ∀ count, first.slotsOfRange next count = second.slotsOfRange next count := by
  intro count
  induction count with
  | zero =>
      rfl
  | succ count inductionHypothesis =>
      rw [Server.slotsOfRange, inductionHypothesis, same]
      rfl

theorem slotsOfRange_strictMono
    {server : Server}
    (positive : server.SlotsPositive)
    (next : Nat) :
    StrictMono (server.slotsOfRange next) := by
  refine strictMono_nat_of_lt_succ fun count => ?_
  have slots := slotsForLogIndex_pos positive (next + count)
  rw [Server.slotsOfRange]
  exact Nat.lt_add_of_pos_right slots

/-- A clamp loop adds up the slots of what it takes. -/
theorem takeEntries_sums
    (server : Server)
    (fits : Nat → Nat → Nat → Bool)
    (next : Nat) :
    ∀ bound accepted,
      (takeEntries server fits bound (next + accepted) accepted
          (server.slotsOfRange next accepted)).2 =
        server.slotsOfRange next
          (takeEntries server fits bound (next + accepted) accepted
            (server.slotsOfRange next accepted)).1 ∧
        (takeEntries server fits bound (next + accepted) accepted
            (server.slotsOfRange next accepted)).1 ≤ accepted + bound ∧
          ((takeEntries server fits bound (next + accepted) accepted
              (server.slotsOfRange next accepted)).1 = accepted ∨
            ∃ count,
              (takeEntries server fits bound (next + accepted) accepted
                  (server.slotsOfRange next accepted)).1 = count + 1 ∧
                fits count (server.slotsOfRange next count)
                  (server.slotsForLogIndex (next + count)) = true) := by
  intro bound
  induction bound with
  | zero =>
      intro accepted
      exact ⟨rfl, le_refl _, Or.inl rfl⟩
  | succ bound inductionHypothesis =>
      intro accepted
      rw [takeEntries]
      split
      · rename_i fitting
        have next := inductionHypothesis (accepted + 1)
        rw [Server.slotsOfRange, ← Nat.add_assoc] at next
        obtain ⟨sum, bounded, last⟩ := next
        refine ⟨sum, by omega, Or.inr ?_⟩
        rcases last with same | later
        · exact ⟨accepted, same, fitting⟩
        · exact later
      · exact ⟨rfl, Nat.le_add_right _ _, Or.inl rfl⟩

/-- What a clamp loop takes from the first entry on. -/
structure Server.Taken
    (server : Server)
    (fits : Nat → Nat → Nat → Bool)
    (bound next : Nat)
    (taken : Nat × Nat) : Prop where
  sum : taken.2 = server.slotsOfRange next taken.1
  bounded : taken.1 ≤ bound
  last :
    0 < taken.1 →
    ∃ count,
      taken.1 = count + 1 ∧
        fits count (server.slotsOfRange next count)
          (server.slotsForLogIndex (next + count)) = true

theorem takeEntries_taken
    (server : Server)
    (fits : Nat → Nat → Nat → Bool)
    (bound next : Nat) :
    server.Taken fits bound next
      (takeEntries server fits bound next 0 0) := by
  obtain ⟨sum, bounded, last⟩ := takeEntries_sums server fits next bound 0
  refine ⟨sum, bounded.trans (le_of_eq (Nat.zero_add bound)), ?_⟩
  intro some
  rcases last with none | later
  · rw [Nat.add_zero, Server.slotsOfRange] at none
    omega
  · exact later

/--
The caps of a round other than the extent end: the number of entries, the
bytes of a round of more than one entry, and the ring end.
-/
structure Server.RoundFits
    (server : Server)
    (next startSlot count : Nat) : Prop where
  some : 0 < count
  inBatch : count ≤ server.maxAeBatch
  inLog : next + count ≤ server.lastLogIndex + 1
  inBytes :
    count = 1 ∨
      server.slotsOfRange next count * sectorSize ≤ server.maxAeBatchBytes
  inRing : startSlot + server.slotsOfRange next count ≤ server.ring.ringSlots

instance Server.RoundFits.decidable
    (server : Server)
    (next startSlot count : Nat) :
    Decidable (server.RoundFits next startSlot count) :=
  decidable_of_iff
    (0 < count ∧ count ≤ server.maxAeBatch ∧
      next + count ≤ server.lastLogIndex + 1 ∧
      (count = 1 ∨
        server.slotsOfRange next count * sectorSize ≤
          server.maxAeBatchBytes) ∧
      startSlot + server.slotsOfRange next count ≤ server.ring.ringSlots)
    ⟨fun ⟨some, inBatch, inLog, inBytes, inRing⟩ =>
        ⟨some, inBatch, inLog, inBytes, inRing⟩,
      fun fits =>
        ⟨fits.some, fits.inBatch, fits.inLog, fits.inBytes, fits.inRing⟩⟩

/--
Some round from the index on ends behind the extent in which it starts, but
not behind the page boundary that follows the extent's slots.
-/
def Server.overrunsExtent
    (server : Server)
    (next : Nat) :
    Bool :=
  match server.startSlotOf next with
  | none => false
  | some startSlot =>
      let left := bytesLeft server.io.extents (slotOffset startSlot)
      (List.range (server.lastLogIndex + 2)).any fun count =>
        decide (server.RoundFits next startSlot count) &&
          (decide (left < server.slotsOfRange next count * sectorSize) &&
            decide (server.slotsOfRange next count * sectorSize ≤
              alignUp left pageSize))

/-- A part of a fitting round fits. -/
theorem Server.RoundFits.shorter
    {server : Server}
    (positive : server.SlotsPositive)
    {next startSlot more count : Nat}
    (fits : server.RoundFits next startSlot more)
    (some : 0 < count)
    (fewer : count ≤ more) :
    server.RoundFits next startSlot count := by
  have slots := (slotsOfRange_strictMono positive next).monotone fewer
  refine ⟨some, fewer.trans fits.inBatch, ?_, ?_, ?_⟩
  · exact (Nat.add_le_add_left fewer next).trans fits.inLog
  · rcases fits.inBytes with one | bytes
    · exact Or.inl (by omega)
    · exact Or.inr ((Nat.mul_le_mul_right _ slots).trans bytes)
  · exact (Nat.add_le_add_left slots startSlot).trans fits.inRing

theorem inBytes_of_underByteCap
    {server : Server}
    {next count : Nat}
    (capped :
      server.underByteCap count (server.slotsOfRange next count)
        (server.slotsForLogIndex (next + count)) = true) :
    count + 1 = 1 ∨
      server.slotsOfRange next (count + 1) * sectorSize ≤
        server.maxAeBatchBytes := by
  rcases Bool.or_eq_true_iff.mp capped with first | bytes
  · exact Or.inl (congrArg (· + 1) (of_decide_eq_true first))
  · exact Or.inr (of_decide_eq_true bytes)

/-- The byte cap and the ring end leave a round that fits. -/
theorem roundEntries_fits
    {server : Server}
    (positive : server.SlotsPositive)
    {next lenEntries startSlot : Nat}
    (inBatch : lenEntries ≤ server.maxAeBatch)
    (inLog : next + lenEntries ≤ server.lastLogIndex + 1)
    (some : 0 < (server.roundEntries next lenEntries startSlot).1) :
    (server.roundEntries next lenEntries startSlot).2 =
        server.slotsOfRange next
          (server.roundEntries next lenEntries startSlot).1 ∧
      server.RoundFits next startSlot
        (server.roundEntries next lenEntries startSlot).1 := by
  have capped := takeEntries_taken server server.underByteCap lenEntries next
  unfold Server.roundEntries at some ⊢
  generalize takeEntries server server.underByteCap lenEntries next 0 0 =
    round at capped some ⊢
  dsimp only at some ⊢
  have grows := slotsOfRange_strictMono positive next
  split at some
  · rename_i tooLong
    have clamped := takeEntries_taken server
      (fun accepted total needed =>
        decide (total + needed ≤ server.ring.ringSlots - startSlot) &&
          server.underByteCap accepted total needed)
      (server.lastLogIndex + 1 - next) next
    rw [if_pos tooLong]
    generalize takeEntries server _ _ next 0 0 = taken at clamped some ⊢
    obtain ⟨count, last, fitting⟩ := clamped.last some
    obtain ⟨inRing, bytes⟩ := Bool.and_eq_true_iff.mp fitting
    have slots :
        server.slotsOfRange next taken.1 ≤
          server.ring.ringSlots - startSlot := by
      rw [last]
      exact of_decide_eq_true inRing
    have first := grows (Nat.lt_of_lt_of_le Nat.one_pos some)
    -- Fewer slots than the capped round has means fewer entries.
    have fewer : taken.1 < round.1 := by
      rw [capped.sum] at tooLong
      exact grows.lt_iff_lt.mp (Nat.lt_of_le_of_lt slots tooLong)
    refine ⟨clamped.sum, some, ?_, ?_, ?_, ?_⟩
    · exact (Nat.le_of_lt fewer).trans (capped.bounded.trans inBatch)
    · have bound := capped.bounded
      omega
    · rw [last]
      exact inBytes_of_underByteCap bytes
    · rw [Server.slotsOfRange] at first
      omega
  · rename_i short
    rw [if_neg short]
    obtain ⟨count, last, fitting⟩ := capped.last some
    have first := grows (Nat.lt_of_lt_of_le Nat.one_pos some)
    refine ⟨capped.sum, some, capped.bounded.trans inBatch, ?_, ?_, ?_⟩
    · have bound := capped.bounded
      omega
    · rw [last]
      exact inBytes_of_underByteCap fitting
    · rw [Server.slotsOfRange, ← capped.sum] at first
      rw [← capped.sum]
      omega

/-- What `leader_pba_for_range` answers. -/
theorem leaderPbaForRange_answer
    {server : Server}
    (tiled : Tiles 0 server.io.extents)
    (startSlot totalSlots : Nat)
    (some : 0 < totalSlots) :
    wp (leaderPbaForRange startSlot totalSlots)
      (fun found final =>
        final = server ∧
          (∃ segment,
            lookup server.io.extents (slotOffset startSlot)
                (alignUp (totalSlots * sectorSize) pageSize) =
                .ok segment ∧
              segment.pba = found.1) ∧
            (totalSlots * sectorSize ≤
                bytesLeft server.io.extents (slotOffset startSlot) ∨
              found.2 = alignUp
                (bytesLeft server.io.extents (slotOffset startSlot))
                pageSize))
      (fun _ final => final = server) server := by
  have whole := le_alignUp (totalSlots * sectorSize)
    (show 0 < pageSize by decide)
  generalize nbytes : alignUp (totalSlots * sectorSize) pageSize = size
    at whole
  simp only [leaderPbaForRange, getPba, Nat.ne_of_gt some, if_false, wp_bind,
    wp_get, nbytes]
  cases located : lookup server.io.extents (slotOffset startSlot) size with
  | error exn =>
      exact rfl
  | ok segment =>
      obtain ⟨extent, found⟩ := covering_of_lookup located
      have length : segment.len =
          min (bytesLeft server.io.extents (slotOffset startSlot)) size := by
        rw [tiled.lookup found, Except.ok.injEq] at located
        rw [← located]
      have left :
          0 < bytesLeft server.io.extents (slotOffset startSlot) := by
        obtain ⟨-, covers⟩ := mem_of_coveringExtent found
        rw [Extent.covers_iff] at covers
        rw [bytesLeft_of_covering found]
        omega
      simp only [wp_ite, wp_bind, wp_throw, wp_pure]
      split_ifs with hole short
      · refine ⟨trivial, ⟨segment, rfl, rfl⟩, Or.inr ?_⟩
        rw [length, Nat.min_eq_left (by omega)]
      · refine ⟨trivial, ⟨segment, rfl, rfl⟩, Or.inl ?_⟩
        omega

/-- What the plan of a data-bearing round says about its bytes. -/
structure RoundPlan.Bounded
    (plan : RoundPlan)
    (server : Server)
    (next : Nat) : Prop where
  started : server.startSlotOf next = some plan.startSlot
  fits : server.RoundFits next plan.startSlot plan.lenEntries
  slots : plan.logBlockLength = server.slotsOfRange next plan.lenEntries
  located :
    ∃ length segment,
      lookup server.io.extents (slotOffset plan.startSlot) length =
          .ok segment ∧
        segment.pba = plan.leaderPbaSrc
  clamped :
    plan.logBlockLength * sectorSize ≤
      alignUp (bytesLeft server.io.extents (slotOffset plan.startSlot))
        pageSize

/-- The extent clamp leaves a part of the round. -/
theorem clampToExtent_fits
    {server : Server}
    (positive : server.SlotsPositive)
    {next startSlot actualSlots : Nat}
    {round : Nat × Nat}
    (sum : round.2 = server.slotsOfRange next round.1)
    (fits : server.RoundFits next startSlot round.1)
    (some : 0 < (server.clampToExtent next round actualSlots).1) :
    (server.clampToExtent next round actualSlots).2 =
        server.slotsOfRange next
          (server.clampToExtent next round actualSlots).1 ∧
      server.RoundFits next startSlot
        (server.clampToExtent next round actualSlots).1 ∧
      (server.clampToExtent next round actualSlots).2 ≤
        min round.2 actualSlots := by
  unfold Server.clampToExtent at some ⊢
  split at some
  · rename_i tooLong
    have taken := takeEntries_taken server
      (fun _ total needed => decide (total + needed ≤ actualSlots))
      (server.lastLogIndex + 1 - next) next
    rw [if_pos tooLong]
    generalize takeEntries server _ _ next 0 0 = clamped at taken some ⊢
    obtain ⟨count, last, fitting⟩ := taken.last some
    have slots : server.slotsOfRange next clamped.1 ≤ actualSlots := by
      rw [last]
      exact of_decide_eq_true fitting
    have fewer : clamped.1 < round.1 := by
      rw [sum] at tooLong
      exact (slotsOfRange_strictMono positive next).lt_iff_lt.mp
        (Nat.lt_of_le_of_lt slots tooLong)
    refine ⟨taken.sum, fits.shorter positive some (Nat.le_of_lt fewer), ?_⟩
    rw [taken.sum]
    exact le_min (slots.trans (Nat.le_of_lt tooLong)) slots
  · rename_i short
    rw [if_neg short]
    exact ⟨sum, fits, le_min (le_refl _) (Nat.not_lt.mp short)⟩

theorem planRound_bounded
    {server : Server}
    (tiled : Tiles 0 server.io.extents)
    (positive : server.SlotsPositive)
    {next lenEntries : Nat}
    (inBatch : lenEntries ≤ server.maxAeBatch)
    (inLog : next + lenEntries ≤ server.lastLogIndex + 1 ∨ lenEntries = 0) :
    wp (planRound next lenEntries)
      (fun plan final =>
        final = server ∧ (0 < plan.lenEntries → plan.Bounded server next))
      (fun _ final => final = server) server := by
  simp only [planRound, wp_bind, wp_get, wp_ite, wp_pure]
  split
  · exact ⟨trivial, fun some => absurd some (Nat.lt_irrefl 0)⟩
  · rename_i entries
    have inLog := inLog.resolve_right entries
    cases started : server.startSlotOf next with
    | none =>
        exact ⟨rfl, fun some => absurd some (Nat.lt_irrefl 0)⟩
    | some startSlot =>
        simp only [wp_bind, wp_ite, wp_pure]
        split
        · exact ⟨trivial, fun some => absurd some (Nat.lt_irrefl 0)⟩
        · rename_i round
          have some := Nat.pos_of_ne_zero round
          obtain ⟨sum, fits⟩ :=
            roundEntries_fits positive inBatch inLog some
          generalize server.roundEntries next lenEntries startSlot = whole
            at some sum fits
          have slots : 0 < whole.2 := by
            rw [sum]
            exact slotsOfRange_strictMono positive next some
          refine wp_mono
            (leaderPbaForRange_answer tiled startSlot whole.2 slots) ?_
            fun _ _ same => same
          rintro found final ⟨rfl, ⟨segment, located, address⟩, left⟩
          refine ⟨rfl, fun some => ?_⟩
          obtain ⟨clampedSum, clampedFits, actual⟩ :=
            clampToExtent_fits positive sum fits some
          obtain ⟨inRound, inExtent⟩ := le_min_iff.mp actual
          refine ⟨started, clampedFits, clampedSum,
            ⟨_, segment, located, address⟩, ?_⟩
          rcases left with fitting | rounded
          · have rounding := le_alignUp
              (bytesLeft final.io.extents (slotOffset startSlot))
              (show 0 < pageSize by decide)
            have bytes := Nat.mul_le_mul_right sectorSize inRound
            exact (bytes.trans fitting).trans rounding
          · have bytes := Nat.mul_le_mul_right sectorSize inExtent
            rw [← rounded]
            exact bytes.trans (Nat.div_mul_le_self found.2 sectorSize)

/--
The request describes exactly the bytes of its entries: their slot records
follow each other from the start slot on, and the device range is the image of
their slots under the extent map.
-/
structure AppendCall.Faithful
    (call : AppendCall)
    (server : Server) : Prop where
  records :
    ∀ offset,
      offset < call.lenEntries →
      ∃ record,
        server.ring.logSlotMap.lookup (call.next + offset) = some record ∧
          record.start =
            call.req.startSlot + server.slotsOfRange call.next offset
  slots :
    call.req.logBlockLength =
      server.slotsOfRange call.next call.lenEntries
  image :
    ∀ byte,
      byte < call.req.logBlockLength * sectorSize →
      lookup server.io.extents
          (slotOffset call.req.startSlot + byte) 1 =
        .ok { pba := call.req.leaderPbaSrc + byte, len := 1 }

theorem slotsForLogIndex_of_lookup
    {server : Server}
    {logIdx : Nat}
    {record : SlotRecord}
    (held : server.ring.logSlotMap.lookup logIdx = some record) :
    server.slotsForLogIndex logIdx = record.numSlots := by
  rw [Server.slotsForLogIndex, held]

/-- Within one extent, chained records follow each other. -/
theorem records_follow
    {server : Server}
    {next startSlot count : Nat}
    {first : SlotRecord}
    (tiled : Tiles 0 server.io.extents)
    (chained : server.ringView.Chained server.ringView.tail)
    (positive : server.SlotsPositive)
    (held : server.ring.logSlotMap.lookup next = some first)
    (starts : first.start = startSlot)
    (inLog : next + count ≤ server.ring.tailLogIndex)
    (inRing :
      startSlot + server.slotsOfRange next count ≤ server.ring.ringSlots)
    (inExtent :
      server.slotsOfRange next count * sectorSize ≤
        bytesLeft server.io.extents (slotOffset startSlot)) :
    ∀ offset,
      offset < count →
      ∃ record,
        server.ring.logSlotMap.lookup (next + offset) = some record ∧
          record.start = startSlot + server.slotsOfRange next offset := by
  intro offset
  induction offset with
  | zero =>
      intro _
      exact ⟨first, held, starts⟩
  | succ offset inductionHypothesis =>
      intro inside
      obtain ⟨record, found, begins⟩ :=
        inductionHypothesis (Nat.lt_of_succ_lt inside)
      obtain ⟨later, foundLater, placed⟩ := chained.next _ _ found
        (show next + offset + 1 < server.ring.tailLogIndex by omega)
      have foundLater' :
          server.ring.logSlotMap.lookup (next + (offset + 1)) =
            some later :=
        foundLater
      refine ⟨later, foundLater', ?_⟩
      have ends :
          record.start + record.numSlots =
            startSlot + server.slotsOfRange next (offset + 1) := by
        rw [Server.slotsOfRange, slotsForLogIndex_of_lookup found, begins]
        omega
      have whole :
          server.slotsOfRange next (offset + 1) + later.numSlots ≤
            server.slotsOfRange next count := by
        have sums := (slotsOfRange_strictMono positive next).monotone inside
        rw [Server.slotsOfRange, slotsForLogIndex_of_lookup foundLater']
          at sums
        exact sums
      have some : 0 < later.numSlots := positive _ _ foundLater'
      rw [placed, ends]
      show nextSlot server.ring.ringSlots server.io.extents _ _ = _
      refine nextSlot_of_fits (by omega) ?_
      have shift :
          slotOffset
              (startSlot + server.slotsOfRange next (offset + 1)) =
            slotOffset startSlot +
              server.slotsOfRange next (offset + 1) * sectorSize := by
        unfold slotOffset
        rw [Nat.add_mul, Nat.add_assoc]
      have bytes := Nat.mul_le_mul_right sectorSize whole
      rw [Nat.add_mul] at bytes
      have sector : 0 < later.numSlots * sectorSize :=
        Nat.mul_pos some (by decide)
      rw [shift, tiled.bytesLeft_add (by omega)]
      omega

/-- A plan whose round does not overrun the extent is faithful. -/
theorem RoundPlan.Bounded.faithful
    {plan : RoundPlan}
    {server : Server}
    {next : Nat}
    (bounded : plan.Bounded server next)
    (tiled : Tiles 0 server.io.extents)
    (chained : server.ringView.Chained server.ringView.tail)
    (started : 0 < server.ring.tailLogIndex)
    (positive : server.SlotsPositive)
    (inside : server.overrunsExtent next = false) :
    AppendCall.Faithful
      { req := server.fillRequest next plan
        next
        lenEntries := plan.lenEntries }
      server := by
  have fits := bounded.fits
  have inLog : next + plan.lenEntries ≤ server.ring.tailLogIndex := by
    have inLog := fits.inLog
    unfold Server.lastLogIndex at inLog
    omega
  have inExtent :
      server.slotsOfRange next plan.lenEntries * sectorSize ≤
        bytesLeft server.io.extents (slotOffset plan.startSlot) := by
    by_contra behind
    rw [Server.overrunsExtent, bounded.started] at inside
    have short :
        plan.lenEntries ∈ List.range (server.lastLogIndex + 2) := by
      have inLog := fits.inLog
      rw [List.mem_range]
      omega
    have none := List.any_eq_false.mp inside _ short
    have clamped := bounded.clamped
    rw [bounded.slots] at clamped
    simp [fits, Nat.not_le.mp behind, clamped] at none
  obtain ⟨length, segment, located, address⟩ := bounded.located
  obtain ⟨first, held, starts⟩ :
      ∃ first,
        server.ring.logSlotMap.lookup next = some first ∧
          first.start = plan.startSlot := by
    have found := bounded.started
    unfold Server.startSlotOf at found
    split at found
    · cases found
    · exact Option.map_eq_some_iff.mp found
  refine ⟨?_, bounded.slots, ?_⟩
  · exact records_follow tiled chained positive held starts inLog fits.inRing
      inExtent
  · intro byte below
    have short :
        byte < bytesLeft server.io.extents (slotOffset plan.startSlot) := by
      have below : byte < plan.logBlockLength * sectorSize := below
      rw [bounded.slots] at below
      exact Nat.lt_of_lt_of_le below inExtent
    have image := tiled.lookup_add located short
    rw [address] at image
    exact image

/-- The round to a member overruns the extent in which it starts. -/
def Server.sendOverruns
    (server : Server)
    (fi : Nat) :
    Bool :=
  (server.clampNext fi).overrunsExtent
    ((server.clampNext fi).member fi).nextIndex

/-- The call of a data-bearing round, as Lock B fills it from its plan. -/
structure AppendCall.PlannedBy
    (call : AppendCall)
    (server : Server)
    (next : Nat)
    (plan : RoundPlan) : Prop where
  bounded : plan.Bounded server next
  filled :
    call = {
      req := server.fillRequest next plan
      next
      lenEntries := plan.lenEntries }

theorem appendEntriesSend_planned
    {server : Server}
    {fi : Nat}
    (tiled : Tiles 0 server.io.extents)
    (positive : server.SlotsPositive) :
    wp (appendEntriesSend fi)
      (fun built _ =>
        ∀ call,
          built = some call →
          0 < call.lenEntries →
          ∃ plan,
            call.PlannedBy (server.clampNext fi)
              ((server.clampNext fi).member fi).nextIndex plan)
      (fun _ _ => True) server := by
  have sameTiled : Tiles 0 (server.clampNext fi).io.extents := tiled
  have samePositive : (server.clampNext fi).SlotsPositive := positive
  simp only [appendEntriesSend, wp_bind, wp_modify, wp_get, wp_ite, wp_pure]
  split
  · rintro call ⟨⟩
  · refine wp_mono (planRound_bounded sameTiled samePositive ?_ ?_) ?_
      fun _ _ _ => trivial
    · split
      · exact min_le_right _ _
      · exact Nat.zero_le _
    · split
      · exact Or.inl (by omega)
      · exact Or.inr rfl
    · rintro plan final ⟨rfl, bounded⟩
      split_ifs with some
      · rintro call ⟨⟩ _
        exact ⟨plan, bounded some, rfl⟩
      · rintro call ⟨⟩ some'
        exact absurd some' some

theorem appendEntriesSend_faithful
    {server : Server}
    {fi : Nat}
    (tiled : Tiles 0 server.io.extents)
    (chained : server.ringView.Chained server.ringView.tail)
    (started : 0 < server.ring.tailLogIndex)
    (positive : server.SlotsPositive)
    (inside : server.sendOverruns fi = false) :
    wp (appendEntriesSend fi)
      (fun built _ =>
        ∀ call,
          built = some call →
          0 < call.lenEntries →
          call.Faithful (server.clampNext fi))
      (fun _ _ => True) server := by
  refine wp_mono (appendEntriesSend_planned tiled positive) ?_
    fun _ _ _ => trivial
  intro built final planned call sent some
  obtain ⟨plan, bounded, filled⟩ := planned call sent some
  rw [filled]
  exact bounded.faithful tiled chained started positive inside

theorem slotsOfRange_clampNext
    (server : Server)
    (fi next count : Nat) :
    (server.clampNext fi).slotsOfRange next count =
      server.slotsOfRange next count := by
  refine slotsOfRange_congr (fun logIdx => ?_) next count
  rfl

theorem AppendCall.Faithful.of_clampNext
    {call : AppendCall}
    {server : Server}
    {fi : Nat}
    (faithful : call.Faithful (server.clampNext fi)) :
    call.Faithful server := by
  obtain ⟨records, slots, image⟩ := faithful
  simp only [slotsOfRange_clampNext] at records slots
  exact ⟨records, slots, image⟩

theorem slotsOfRange_withOutcomes
    (server : Server)
    (outcomes : IoOutcomes)
    (next count : Nat) :
    (server.withOutcomes outcomes).slotsOfRange next count =
      server.slotsOfRange next count := by
  refine slotsOfRange_congr (fun logIdx => ?_) next count
  rfl

theorem roundFits_withOutcomes
    (server : Server)
    (outcomes : IoOutcomes)
    (next startSlot count : Nat) :
    (server.withOutcomes outcomes).RoundFits next startSlot count ↔
      server.RoundFits next startSlot count := by
  constructor
  · rintro ⟨some, inBatch, inLog, inBytes, inRing⟩
    rw [slotsOfRange_withOutcomes] at inBytes inRing
    exact ⟨some, inBatch, inLog, inBytes, inRing⟩
  · rintro ⟨some, inBatch, inLog, inBytes, inRing⟩
    rw [← slotsOfRange_withOutcomes server outcomes] at inBytes inRing
    exact ⟨some, inBatch, inLog, inBytes, inRing⟩

/-- Lock B makes no I/O call. -/
theorem sendOverruns_withOutcomes
    (server : Server)
    (outcomes : IoOutcomes)
    (fi : Nat) :
    (server.withOutcomes outcomes).sendOverruns fi =
      server.sendOverruns fi := by
  have same :
      (server.withOutcomes outcomes).clampNext fi =
        (server.clampNext fi).withOutcomes outcomes :=
    rfl
  rw [Server.sendOverruns, Server.sendOverruns, same]
  simp only [Server.overrunsExtent, slotsOfRange_withOutcomes,
    roundFits_withOutcomes]
  rfl

/-- The request that Lock B builds for a member, if it builds one. -/
def Server.builtCall?
    (server : Server)
    (fi : Nat) :
    Option AppendCall :=
  match (appendEntriesSend fi).run server with
  | .ok built _ => built
  | .error _ _ => none

theorem wp_builtCall
    {server : Server}
    {fi : Nat}
    {call : AppendCall}
    {holds : AppendCall → Prop}
    (spec :
      wp (appendEntriesSend fi)
        (fun built _ => ∀ call, built = some call → holds call)
        (fun _ _ => True) server)
    (built : server.builtCall? fi = some call) :
    holds call := by
  unfold wp at spec
  unfold Server.builtCall? at built
  cases ended : (appendEntriesSend fi).run server with
  | ok sent after =>
      rw [ended] at spec built
      exact spec call built
  | error exn after =>
      rw [ended] at built
      cases built

/--
Source fidelity of replicated batches: over a leadership that starts without
slot records, in which no append handler from before the election finishes and
whose I/O calls succeed, a data-bearing request that Lock B builds for a member
describes exactly the bytes of its entries, unless the round overruns the
extent in which it starts.
-/
theorem request_describes_entries
    {n : Nat}
    {members : Membership n}
    {settings : Fin n → Settings}
    {node : Fin n}
    {before inputs : List Input}
    {candidate leader proc : Process}
    {election : Input}
    {outcomes : IoOutcomes}
    {fi : Nat}
    {call : AppendCall}
    (campaign :
      (members.boot settings node).Reaches before candidate)
    (wins : candidate.node.wins election.act = true)
    (elected : candidate.advance election = some leader)
    (written : election.outcomes.succeed = true)
    (tiled : Tiles 0 candidate.server.io.extents)
    (fresh : candidate.server.ring.logSlotMap.entries = [])
    (run :
      runWhile soundLeadership Process.advance leader inputs = some proc)
    (inside : proc.server.sendOverruns fi = false)
    (built :
      (proc.server.withOutcomes outcomes).builtCall? fi = some call)
    (data : 0 < call.lenEntries) :
    call.Faithful proc.server := by
  have started := run_started (boot_started members settings node) campaign
  have chaining :
      proc.Chaining candidate.server.io.extents :=
    runWhile_invariant
      (fun proc => proc.Chaining candidate.server.io.extents)
      (fun _ _ _ holds inside advanced => holds.step tiled inside advanced)
      (Process.Chaining.of_election started wins written elected tiled
        (markedView_chained fresh _))
      run
  have chain := chaining.chain
  have layout : Tiles 0 proc.server.ringView.extents := by
    rw [chain.extents]
    exact tiled
  have faithful :
      call.Faithful ((proc.server.withOutcomes outcomes).clampNext fi) := by
    have uncrossed :
        (proc.server.withOutcomes outcomes).sendOverruns fi = false :=
      (sendOverruns_withOutcomes _ _ _).trans inside
    have spec : wp (appendEntriesSend fi) _ _
        (proc.server.withOutcomes outcomes) :=
      appendEntriesSend_faithful layout chain.chained
        (Nat.zero_lt_of_lt chain.below) chaining.wellformed.positive uncrossed
    exact wp_builtCall spec built data
  obtain ⟨records, slots, image⟩ := faithful.of_clampNext
  simp only [slotsOfRange_withOutcomes] at records slots
  exact ⟨records, slots, image⟩

/-- A ring file of two pages that are two extents apart on the device. -/
def splitRing : Settings where
  extents :=
    [{ logical := 0, physical := 8192, length := 4096 },
     { logical := 4096, physical := 65536, length := 4096 }]

/-- The first node of a fresh cluster on such files. -/
def splitNode : Process :=
  threeMembers.boot (fun _ => splitRing) firstMember

/-- Five commands after the no-op entry end in front of the first extent's end. -/
def fiveCommands : List Input :=
  [{ act := .apply 7 [[1], [2], [3], [4], [5]] }]

/-- The round of six entries is faithful. -/
theorem six_entries_described :
    ∃ candidate leader proc call,
      splitNode.Reaches firstCampaign candidate ∧
        candidate.advance { act := mainAct false } = some leader ∧
          runWhile soundLeadership Process.advance leader fiveCommands =
              some proc ∧
            (proc.server.withOutcomes {}).builtCall? 1 = some call ∧
              call.lenEntries = 6 ∧ call.Faithful proc.server := by
  obtain ⟨candidate, campaign, passes⟩ :
      ∃ candidate,
        runWhile (fun _ _ => true) Process.advance splitNode
            firstCampaign = some candidate ∧
          (candidate.node.wins (mainAct false) &&
            (decide (Tiles 0 candidate.server.io.extents) &&
              (decide (candidate.server.ring.logSlotMap.entries.length = 0) &&
                (candidate.advance { act := mainAct false }).any fun leader =>
                  (runWhile soundLeadership Process.advance leader
                    fiveCommands).any fun proc =>
                      !proc.server.sendOverruns 1 &&
                        ((proc.server.withOutcomes {}).builtCall? 1).any
                          fun call => decide (call.lenEntries = 6)))) =
            true :=
    runWhile_exists (by decide +kernel)
  obtain ⟨wins, passes⟩ := Bool.and_eq_true_iff.mp passes
  obtain ⟨tiled, passes⟩ := Bool.and_eq_true_iff.mp passes
  obtain ⟨fresh, passes⟩ := Bool.and_eq_true_iff.mp passes
  obtain ⟨leader, elected, passes⟩ := (Option.any_eq_true _ _).mp passes
  obtain ⟨proc, run, passes⟩ := (Option.any_eq_true _ _).mp passes
  obtain ⟨inside, passes⟩ := Bool.and_eq_true_iff.mp passes
  obtain ⟨call, built, six⟩ := (Option.any_eq_true _ _).mp passes
  have six : call.lenEntries = 6 := of_decide_eq_true six
  have faithful := request_describes_entries campaign wins elected rfl
    (of_decide_eq_true tiled)
    (List.eq_nil_of_length_eq_zero (of_decide_eq_true fresh)) run
    (by simpa using inside) built (by omega)
  exact ⟨candidate, leader, proc, call, campaign, elected, run, built, six,
    faithful⟩

/--
Every data-bearing request of every leadership of a node describes its
entries, as long as every entry fits in every extent behind the file header.
-/
def DescribesEntries (start : Process) : Prop :=
  ∀ before candidate election leader inputs proc fi call,
    start.Reaches before candidate →
    candidate.node.wins election.act = true →
    candidate.advance election = some leader →
    election.outcomes.succeed = true →
    candidate.server.ring.logSlotMap.entries = [] →
    runWhile soundLeadership Process.advance leader inputs = some proc →
    (∀ entry ∈ proc.server.raft.log, ∀ extent ∈ proc.server.io.extents,
      ringOffset + entrySlots entry * sectorSize ≤ extent.length) →
    (proc.server.withOutcomes {}).builtCall? fi = some call →
    0 < call.lenEntries →
    call.Faithful proc.server

/-- Seven commands after the no-op entry pass the first extent's end. -/
def sevenCommands : List Input :=
  [{ act := .apply 7 [[1], [2], [3], [4], [5], [6], [7]] }]

/--
The eighth entry of the round lies in the second extent, but the request
describes the device bytes behind the first one.
-/
theorem eighth_entry_misdescribed :
    (Tiles 0 splitRing.extents ∧
      ∀ extent ∈ splitRing.extents, extent.length % pageSize = 0) ∧
      ¬ DescribesEntries splitNode := by
  refine ⟨by decide, fun describes => ?_⟩
  obtain ⟨candidate, campaign, passes⟩ :
      ∃ candidate,
        runWhile (fun _ _ => true) Process.advance splitNode
            firstCampaign = some candidate ∧
          (candidate.node.wins (mainAct false) &&
            (decide (candidate.server.ring.logSlotMap.entries.length = 0) &&
              (candidate.advance { act := mainAct false }).any fun leader =>
                (runWhile soundLeadership Process.advance leader
                  sevenCommands).any fun proc =>
                    decide (∀ entry ∈ proc.server.raft.log,
                      ∀ extent ∈ proc.server.io.extents,
                        ringOffset + entrySlots entry * sectorSize ≤
                          extent.length) &&
                      ((proc.server.withOutcomes {}).builtCall? 1).any
                        fun call =>
                          decide (call.lenEntries = 8 ∧
                            call.req.logBlockLength = 8 ∧
                            call.req.startSlot = 0 ∧
                            call.req.leaderPbaSrc = 8704 ∧
                            proc.server.io.extents =
                              splitRing.extents))) = true :=
    runWhile_exists (by decide +kernel)
  obtain ⟨wins, passes⟩ := Bool.and_eq_true_iff.mp passes
  obtain ⟨fresh, passes⟩ := Bool.and_eq_true_iff.mp passes
  obtain ⟨leader, elected, passes⟩ := (Option.any_eq_true _ _).mp passes
  obtain ⟨proc, run, passes⟩ := (Option.any_eq_true _ _).mp passes
  obtain ⟨short, passes⟩ := Bool.and_eq_true_iff.mp passes
  obtain ⟨call, built, passes⟩ := (Option.any_eq_true _ _).mp passes
  obtain ⟨eight, blocks, startSlot, address, extents⟩ :=
    of_decide_eq_true passes
  have faithful := describes firstCampaign candidate _ leader sevenCommands
    proc 1 call campaign wins elected rfl
    (List.eq_nil_of_length_eq_zero (of_decide_eq_true fresh)) run
    (of_decide_eq_true short) built (by omega)
  -- The first byte of the eighth entry is the first of the second extent.
  have image := faithful.image 3584 (by
    rw [blocks]
    decide)
  rw [startSlot, address, extents] at image
  exact absurd image (by decide)

end NvmeofRaft
