import Mathlib.Order.Bounds.Basic
import NvmeofRaft.EntryIndex
import NvmeofRaft.SourceFidelity

namespace NvmeofRaft

/-!
# The clamps of a batch

`append_entries_worker` cuts a batch three times: by the number of entries and
the byte cap, at the ring end and at the end of the extent.  The second and the
third cut count again from the first entry and check only a part of the limits;
they still end with the longest prefix that keeps all of them, because the
slots of a prefix only grow with its length.
-/

section

variable {server : Server} {next startSlot : Nat}

/-- More entries take more slots. -/
theorem slotsOfRange_monotone
    (server : Server)
    (next : Nat) :
    Monotone (server.slotsOfRange next) :=
  monotone_nat_of_le_succ fun _ => Nat.le_add_right _ _

/--
A clamp loop whose test says whether one more entry keeps a limit takes the
longest prefix within the limit, if shorter prefixes keep it as well.
-/
theorem takeEntries_longest
    (server : Server)
    (next : Nat)
    (fits : Nat → Nat → Nat → Bool)
    (holds : Nat → Prop)
    (none : holds 0)
    (shorter : ∀ {more count}, holds more → count ≤ more → holds count)
    (tests :
      ∀ count,
        fits count (server.slotsOfRange next count)
            (server.slotsForLogIndex (next + count)) = true ↔
          holds (count + 1))
    (bound : Nat) :
    (takeEntries server fits bound next 0 0).2 =
      server.slotsOfRange next (takeEntries server fits bound next 0 0).1 ∧
      IsGreatest { count | count ≤ bound ∧ holds count }
        (takeEntries server fits bound next 0 0).1 := by
  have steps :
      ∀ bound accepted,
        holds accepted →
        IsGreatest { count | count ≤ accepted + bound ∧ holds count }
          (takeEntries server fits bound (next + accepted) accepted
            (server.slotsOfRange next accepted)).1 := by
    intro bound
    induction bound with
    | zero =>
        intro accepted held
        exact ⟨⟨le_refl _, held⟩, fun count inside => inside.1⟩
    | succ bound inductionHypothesis =>
        intro accepted held
        rw [takeEntries]
        split
        · rename_i fitting
          have later := inductionHypothesis (accepted + 1)
            ((tests accepted).mp fitting)
          rw [Server.slotsOfRange, ← Nat.add_assoc,
            Nat.add_right_comm accepted 1 bound] at later
          exact later
        · rename_i unfit
          refine ⟨⟨Nat.le_add_right _ _, held⟩, ?_⟩
          rintro count ⟨-, holds⟩
          by_contra longer
          exact unfit ((tests accepted).mpr
            (shorter holds (Nat.not_le.mp longer)))
  have longest := steps bound 0 none
  rw [Nat.zero_add] at longest
  exact ⟨(takeEntries_taken server fits bound next).sum, longest⟩

/-- `raft.log[log_slice(log_idx)]`, where it is inside the vector. -/
def Server.logAt?
    (server : Server)
    (logIdx : Nat) :
    Option Entry :=
  server.raft.log[server.logSlice logIdx]?

/-- `slots_for_log_index`, where its access is inside the vector. -/
def Server.slotsForLogIndex?
    (server : Server)
    (logIdx : Nat) :
    Option Nat :=
  match server.ring.logSlotMap.lookup logIdx with
  | some record => some record.numSlots
  | none => (server.logAt? logIdx).map entrySlots

/-- The clamp loops, where all their accesses are inside the vector. -/
def takeEntries?
    (server : Server)
    (fits : Nat → Nat → Nat → Bool) :
    Nat → Nat → Nat → Nat → Option (Nat × Nat)
  | 0, _, accepted, total =>
      some (accepted, total)
  | bound + 1, logIdx, accepted, total => do
      let needed ← server.slotsForLogIndex? logIdx
      if fits accepted total needed then
        takeEntries? server fits bound (logIdx + 1) (accepted + 1)
          (total + needed)
      else
        return (accepted, total)

/-- An entry in memory is read inside the vector. -/
theorem logAt?_of_covered
    {logIdx : Nat}
    (covered : server.entryView.Covered)
    (inMemory : server.oldestLogIndex ≤ logIdx)
    (inLog : logIdx < server.ring.tailLogIndex) :
    server.logAt? logIdx = some (server.logAt logIdx) := by
  have inside : server.logSlice logIdx < server.raft.log.length := by
    rw [Server.logSlice, sub64_of_le (Nat.le_succ_of_le inMemory)]
    exact covered.position_lt inMemory inLog
  rw [Server.logAt?, Server.logAt, List.getD_eq_getElem?_getD,
    List.getElem?_eq_getElem inside]
  rfl

theorem slotsForLogIndex?_of_covered
    {logIdx : Nat}
    (covered : server.entryView.Covered)
    (inMemory : server.oldestLogIndex ≤ logIdx)
    (inLog : logIdx < server.ring.tailLogIndex) :
    server.slotsForLogIndex? logIdx =
      some (server.slotsForLogIndex logIdx) := by
  unfold Server.slotsForLogIndex? Server.slotsForLogIndex
  cases server.ring.logSlotMap.lookup logIdx with
  | some record =>
      rfl
  | none =>
      rw [logAt?_of_covered covered inMemory inLog]
      rfl

/-- A clamp loop over entries in memory reads inside the vector. -/
theorem takeEntries?_of_covered
    (covered : server.entryView.Covered)
    (fits : Nat → Nat → Nat → Bool) :
    ∀ bound logIdx accepted total,
      server.oldestLogIndex ≤ logIdx →
      logIdx + bound ≤ server.ring.tailLogIndex →
      takeEntries? server fits bound logIdx accepted total =
        some (takeEntries server fits bound logIdx accepted total) := by
  intro bound
  induction bound with
  | zero =>
      intro logIdx accepted total _ _
      rfl
  | succ bound inductionHypothesis =>
      intro logIdx accepted total inMemory inLog
      rw [takeEntries?, takeEntries,
        slotsForLogIndex?_of_covered covered inMemory (by omega)]
      show (if fits accepted total (server.slotsForLogIndex logIdx) then
          takeEntries? server fits bound (logIdx + 1) (accepted + 1)
            (total + server.slotsForLogIndex logIdx)
        else
          some (accepted, total)) = _
      split
      · exact inductionHypothesis _ _ _ (by omega) (by omega)
      · rfl

/-- The bytes left in the extent that holds the first byte of a slot. -/
def Server.extentLeft
    (server : Server)
    (startSlot : Nat) :
    Nat :=
  (remainingAtSlow server.io.extents (slotOffset startSlot)).1

/-- A batch keeps the byte cap; the first entry is exempt. -/
def Server.KeepsByteCap
    (server : Server)
    (next count : Nat) : Prop :=
  count ≤ 1 ∨
    server.slotsOfRange next count * sectorSize ≤ server.maxAeBatchBytes

/-- The limits of a batch. -/
structure Server.Admissible
    (server : Server)
    (next startSlot count : Nat) : Prop where
  inLog : next + count ≤ server.lastLogIndex + 1
  inBatch : count ≤ server.maxAeBatch
  inBytes : server.KeepsByteCap next count
  inRing : startSlot + server.slotsOfRange next count ≤ server.ring.ringSlots
  inExtent :
    server.slotsOfRange next count ≤
      alignUp (server.extentLeft startSlot) pageSize / sectorSize

theorem Server.KeepsByteCap.shorter
    {more count : Nat}
    (keeps : server.KeepsByteCap next more)
    (fewer : count ≤ more) :
    server.KeepsByteCap next count := by
  rcases keeps with one | bytes
  · exact Or.inl (fewer.trans one)
  · exact Or.inr ((Nat.mul_le_mul_right _
      (slotsOfRange_monotone server next fewer)).trans bytes)

/-- The byte limit of the loop is the limit of the batch with one entry more. -/
theorem underByteCap_iff
    (count : Nat) :
    server.underByteCap count (server.slotsOfRange next count)
        (server.slotsForLogIndex (next + count)) = true ↔
      server.KeepsByteCap next (count + 1) := by
  rw [Server.underByteCap, Bool.or_eq_true, decide_eq_true_iff,
    decide_eq_true_iff, Server.KeepsByteCap, Nat.succ_le_succ_iff,
    Nat.le_zero_eq, Server.slotsOfRange]

/-- The first loop takes the longest prefix under the byte cap. -/
theorem capped_longest
    (server : Server)
    (next lenEntries : Nat) :
    (takeEntries server server.underByteCap lenEntries next 0 0).2 =
      server.slotsOfRange next
        (takeEntries server server.underByteCap lenEntries next 0 0).1 ∧
      IsGreatest { count | count ≤ lenEntries ∧
          server.KeepsByteCap next count }
        (takeEntries server server.underByteCap lenEntries next 0 0).1 :=
  takeEntries_longest server next _ _ (Or.inl (Nat.zero_le 1)) .shorter
    underByteCap_iff _

/-- The limits in front of the clamp at the extent end. -/
def Server.InRound
    (server : Server)
    (lenEntries next startSlot count : Nat) : Prop :=
  count ≤ lenEntries ∧ server.KeepsByteCap next count ∧
    startSlot + server.slotsOfRange next count ≤ server.ring.ringSlots

/-- The clamp at the ring end leaves the longest prefix under both limits. -/
theorem roundEntries_longest
    {lenEntries : Nat}
    (inRing : startSlot ≤ server.ring.ringSlots)
    (inLog : lenEntries ≤ server.lastLogIndex + 1 - next) :
    (server.roundEntries next lenEntries startSlot).2 =
      server.slotsOfRange next
        (server.roundEntries next lenEntries startSlot).1 ∧
      IsGreatest { count | server.InRound lenEntries next startSlot count }
        (server.roundEntries next lenEntries startSlot).1 := by
  obtain ⟨sum, ⟨inBound, inBytes⟩, longest⟩ :=
    capped_longest server next lenEntries
  unfold Server.roundEntries
  generalize takeEntries server server.underByteCap lenEntries next 0 0 =
    capped at sum inBound inBytes longest ⊢
  have grows := slotsOfRange_monotone server next
  dsimp only
  split
  · rename_i tooLong
    obtain ⟨clampedSum, ⟨-, keeps, ends⟩, clampedLongest⟩ :=
      takeEntries_longest server next
        (fun accepted total needed =>
          decide (total + needed ≤ server.ring.ringSlots - startSlot) &&
            server.underByteCap accepted total needed)
        (fun count =>
          server.KeepsByteCap next count ∧
            startSlot + server.slotsOfRange next count ≤
              server.ring.ringSlots)
        ⟨Or.inl (Nat.zero_le 1), inRing⟩
        (fun holds fewer =>
          ⟨holds.1.shorter fewer,
            (Nat.add_le_add_left (grows fewer) startSlot).trans holds.2⟩)
        (fun count => by
          rw [Bool.and_eq_true, decide_eq_true_iff, underByteCap_iff,
            Server.slotsOfRange, and_comm, Nat.le_sub_iff_add_le' inRing])
        (server.lastLogIndex + 1 - next)
    generalize takeEntries server _ _ next 0 0 = clamped at *
    -- Fewer slots than the capped round has means fewer entries.
    have fewer : clamped.1 < capped.1 := by
      refine grows.reflect_lt ?_
      rw [← sum]
      omega
    refine ⟨clampedSum, ⟨?_, keeps, ends⟩, ?_⟩
    · omega
    · rintro count ⟨bounded, admissible⟩
      exact clampedLongest ⟨bounded.trans inLog, admissible⟩
  · rename_i short
    refine ⟨sum, ⟨inBound, inBytes, ?_⟩, ?_⟩
    · rw [← sum]
      omega
    · rintro count ⟨bounded, keeps, -⟩
      exact longest ⟨bounded, keeps⟩

/-- So does the clamp at the end of the extent. -/
theorem clampToExtent_longest
    {lenEntries : Nat}
    {round : Nat × Nat}
    (actualSlots : Nat)
    (inLog : lenEntries ≤ server.lastLogIndex + 1 - next)
    (sum : round.2 = server.slotsOfRange next round.1)
    (longest :
      IsGreatest { count | server.InRound lenEntries next startSlot count }
        round.1) :
    (server.clampToExtent next round actualSlots).2 =
      server.slotsOfRange next
        (server.clampToExtent next round actualSlots).1 ∧
      IsGreatest
        { count | server.InRound lenEntries next startSlot count ∧
          server.slotsOfRange next count ≤ actualSlots }
        (server.clampToExtent next round actualSlots).1 := by
  have grows := slotsOfRange_monotone server next
  obtain ⟨⟨inBound, inBytes, inRing⟩, longest⟩ := longest
  unfold Server.clampToExtent
  split
  · rename_i tooLong
    obtain ⟨clampedSum, ⟨-, ends⟩, clampedLongest⟩ :=
      takeEntries_longest server next
        (fun _ total needed => decide (total + needed ≤ actualSlots))
        (fun count =>
          server.slotsOfRange next count ≤ actualSlots)
        (Nat.zero_le _) (fun holds fewer => (grows fewer).trans holds)
        (fun count => by rw [decide_eq_true_iff, Server.slotsOfRange])
        (server.lastLogIndex + 1 - next)
    generalize takeEntries server _ _ next 0 0 = clamped at *
    have fewer : clamped.1 < round.1 := by
      refine grows.reflect_lt ?_
      rw [← sum]
      exact Nat.lt_of_le_of_lt ends tooLong
    have slots := grows (Nat.le_of_lt fewer)
    refine ⟨clampedSum, ⟨⟨?_, ?_, ?_⟩, ends⟩, ?_⟩
    · exact (Nat.le_of_lt fewer).trans inBound
    · exact inBytes.shorter (Nat.le_of_lt fewer)
    · exact (Nat.add_le_add_left slots startSlot).trans inRing
    · rintro count ⟨inRound, inExtent⟩
      exact clampedLongest ⟨inRound.1.trans inLog, inExtent⟩
  · rename_i short
    refine ⟨sum, ⟨⟨inBound, inBytes, inRing⟩, ?_⟩, ?_⟩
    · rw [← sum]
      exact Nat.not_lt.mp short
    · rintro count ⟨inRound, -⟩
      exact longest inRound

/-- No extent holds the start slot, or only at address zero. -/
def Server.NoAddress
    (server : Server)
    (startSlot : Nat) : Prop :=
  ∀ length segment,
    lookup server.io.extents (slotOffset startSlot) length = .ok segment →
    segment.pba = 0

/-- An answer of the extent map, by what is left in the extent. -/
theorem lookup_left
    {extents : List Extent}
    {logical length : Nat}
    {segment : PbaSegment}
    (found : lookup extents logical length = .ok segment) :
    0 < (remainingAtSlow extents logical).1 ∧
      segment.len = min (remainingAtSlow extents logical).1 length ∧
        ∀ other second,
          lookup extents logical other = .ok second →
          second.pba = segment.pba := by
  unfold lookup at found
  cases upTo : (extentsUpTo extents logical).getLast? with
  | none =>
      rw [upTo] at found
      cases found
  | some extent =>
      rw [upTo] at found
      dsimp only at found
      split at found
      · cases found
      · rename_i inside
        obtain rfl := Except.ok.inj found
        simp only [remainingAtSlow, upTo, inside, if_false]
        have before : extent.logical ≤ logical := by
          simpa using List.mem_takeWhile_imp (List.mem_of_getLast? upTo)
        refine ⟨by omega, trivial, fun other second found => ?_⟩
        simp only [lookup, upTo, inside, if_false] at found
        obtain rfl := Except.ok.inj found
        rfl

theorem left_of_lookup_error
    {extents : List Extent}
    {logical length : Nat}
    {exn : Exn}
    (missed : lookup extents logical length = .error exn) :
    (remainingAtSlow extents logical).1 = 0 := by
  unfold lookup at missed
  cases upTo : (extentsUpTo extents logical).getLast? with
  | none =>
      simp only [remainingAtSlow, upTo]
  | some extent =>
      rw [upTo] at missed
      dsimp only at missed
      split at missed
      · rename_i past
        simp only [remainingAtSlow, upTo, past, if_true]
      · cases missed

/-- `leader_pba_for_range` reports the bytes of the extent in whole pages. -/
theorem leaderPbaForRange_left
    (server : Server)
    (startSlot totalSlots : Nat) :
    wp (leaderPbaForRange startSlot totalSlots)
      (fun found final =>
        final = server ∧
          (totalSlots * sectorSize ≤ server.extentLeft startSlot ∧
              totalSlots ≤ found.2 / sectorSize ∨
            found.2 = alignUp (server.extentLeft startSlot) pageSize))
      (fun _ _ => server.NoAddress startSlot) server := by
  rcases Nat.eq_zero_or_pos totalSlots with none | some
  · subst none
    simp only [leaderPbaForRange, if_true, wp_pure]
    exact ⟨trivial, Or.inl ⟨Nat.zero_le _, Nat.zero_le _⟩⟩
  · have whole := le_alignUp (totalSlots * sectorSize)
      (show 0 < pageSize by decide)
    generalize nbytes : alignUp (totalSlots * sectorSize) pageSize = size
      at whole
    simp only [leaderPbaForRange, getPba, Nat.ne_of_gt some, if_false,
      wp_bind, wp_get, nbytes]
    cases located : lookup server.io.extents (slotOffset startSlot) size with
    | error exn =>
        intro other second found
        have left := (lookup_left found).1
        rw [left_of_lookup_error located] at left
        exact absurd left (Nat.lt_irrefl 0)
    | ok segment =>
        obtain ⟨left, length, address⟩ := lookup_left located
        simp only [wp_ite, wp_bind, wp_throw, wp_pure]
        split_ifs with hole short
        · intro other second found
          rw [address other second found]
          exact hole
        · refine ⟨trivial, Or.inr ?_⟩
          rw [length, Nat.min_eq_left (by omega)]
          rfl
        · refine ⟨trivial, Or.inl ⟨?_, ?_⟩⟩
          · show _ ≤ (remainingAtSlow _ _).1
            omega
          · exact (Nat.le_div_iff_mul_le (by decide)).mpr whole

/-- The planned batch is the longest within the limits. -/
theorem planRound_longest
    {lenEntries : Nat}
    (some : 0 < lenEntries)
    (started : server.startSlotOf next = Option.some startSlot)
    (inRing : startSlot ≤ server.ring.ringSlots)
    (inLog : lenEntries ≤ server.lastLogIndex + 1 - next) :
    wp (planRound next lenEntries)
      (fun plan final =>
        final = server ∧
          plan.logBlockLength = server.slotsOfRange next plan.lenEntries ∧
            IsGreatest
              { count | server.InRound lenEntries next startSlot count ∧
                server.slotsOfRange next count ≤
                  alignUp (server.extentLeft startSlot) pageSize /
                    sectorSize }
              plan.lenEntries)
      (fun _ _ => server.NoAddress startSlot) server := by
  obtain ⟨sum, longest⟩ := roundEntries_longest inRing inLog
  simp only [planRound, wp_bind, wp_get, wp_ite, wp_pure,
    Nat.ne_of_gt some, if_false, started]
  generalize server.roundEntries next lenEntries startSlot = round
    at sum longest ⊢
  split
  · rename_i none
    rw [none] at longest
    exact ⟨trivial, rfl, ⟨longest.1, Nat.zero_le _⟩,
      fun count inside => longest.2 inside.1⟩
  · refine wp_mono (leaderPbaForRange_left server startSlot round.2) ?_
      fun _ _ nowhere => nowhere
    rintro found final ⟨rfl, reported⟩
    obtain ⟨clampedSum, clamped⟩ :=
      clampToExtent_longest (found.2 / sectorSize) inLog sum longest
    refine ⟨rfl, clampedSum, ?_⟩
    have same :
        ∀ count,
          final.InRound lenEntries next startSlot count →
          (final.slotsOfRange next count ≤ found.2 / sectorSize ↔
            final.slotsOfRange next count ≤
              alignUp (final.extentLeft startSlot) pageSize /
                sectorSize) := by
      intro count inRound
      rcases reported with ⟨fitting, covered⟩ | rounded
      · have fewer := slotsOfRange_monotone final next (longest.2 inRound)
        rw [← sum] at fewer
        have rounding := le_alignUp (final.extentLeft startSlot)
          (show 0 < pageSize by decide)
        have whole :
            round.2 ≤
              alignUp (final.extentLeft startSlot) pageSize / sectorSize :=
          (Nat.le_div_iff_mul_le (by decide)).mpr (fitting.trans rounding)
        exact ⟨fun _ => fewer.trans whole, fun _ => fewer.trans covered⟩
      · rw [rounded]
    refine ⟨⟨clamped.1.1, (same _ clamped.1.1).mp clamped.1.2⟩, ?_⟩
    rintro count ⟨inRound, inExtent⟩
    exact clamped.2 ⟨inRound, (same count inRound).mpr inExtent⟩

/-- A change that keeps the item at its position keeps the list. -/
theorem modify_of_unchanged
    {Item : Type}
    {items : List Item}
    {index : Nat}
    {update : Item → Item}
    (unchanged : ∀ item, items[index]? = some item → update item = item) :
    items.modify index update = items := by
  refine List.ext_getElem? fun other => ?_
  rw [List.getElem?_modify]
  split
  · rename_i here
    subst here
    cases found : items[index]? with
    | none =>
        rfl
    | some item =>
        exact congrArg some (unchanged item found)
  · exact id_map _

/-- `next_index` inside the own log is not pulled back. -/
theorem clampNext_of_le
    {fi : Nat}
    (isNext : (server.member fi).nextIndex = next)
    (inLog : next ≤ server.lastLogIndex) :
    server.clampNext fi = server := by
  rw [Server.clampNext, Server.mapMember, Server.mapRaft,
    modify_of_unchanged]
  intro member found
  rw [Server.member, List.getD_eq_getElem?_getD, found] at isNext
  have kept :
      min member.nextIndex (server.lastLogIndex + 1) = member.nextIndex := by
    rw [show member.nextIndex = next from isNext]
    omega
  rw [kept]

/--
The clamps of `append_entries_worker` end with the longest admissible prefix,
for every leader whose first entry to send has its slot record: whatever the
sizes of the entries, the caps and the extent.  Unless an earlier batch is in
flight, or the start slot has no address on the device, the round has that many
entries and exactly their slots.  `slots_per_entry` divides by a positive
number.  No loop reads outside the log vector when the first entry is still in
memory, which trimming sees to: it removes only what has been collected.
-/
theorem clamps_take_longest
    {fi : Nat}
    (isNext : (server.member fi).nextIndex = next)
    (inLog : next ≤ server.lastLogIndex)
    (started : server.startSlotOf next = some startSlot)
    (inRing : startSlot ≤ server.ring.ringSlots)
    (batch : 1 ≤ server.maxAeBatch) :
    wp (appendEntriesSend fi)
      (fun built _ =>
        built = none ∧ (server.member fi).inflight = true ∨
          ∃ call,
            built = some call ∧
              IsGreatest { count | server.Admissible next startSlot count }
                call.lenEntries ∧
              call.req.numEntries = call.lenEntries ∧
              call.req.logBlockLength =
                server.slotsOfRange next call.lenEntries)
      (fun _ _ => server.NoAddress startSlot) server ∧
    0 < (takeEntries server server.underByteCap
      (min (server.lastLogIndex + 1 - next) server.maxAeBatch) next 0 0).1 ∧
    (0 < server.ring.tailLogIndex →
      server.entryView.Covered →
      server.oldestLogIndex ≤ next →
      ∀ fits bound,
        bound ≤ server.lastLogIndex + 1 - next →
        takeEntries? server fits bound next 0 0 =
          some (takeEntries server fits bound next 0 0)) := by
  refine ⟨?_, ?_, ?_⟩
  · simp only [appendEntriesSend, wp_bind, wp_modify, wp_get, wp_ite, wp_pure,
      clampNext_of_le isNext inLog, isNext, inLog, if_true, true_and]
    split
    · rename_i inflight
      exact Or.inl inflight
    · refine wp_mono (planRound_longest (by omega) started inRing
        (min_le_left _ _)) ?_ fun _ _ nowhere => nowhere
      rintro plan final ⟨rfl, slots, longest⟩
      have admissible :
          { count | final.Admissible next startSlot count } =
            { count |
              final.InRound
                  (min (final.lastLogIndex + 1 - next) final.maxAeBatch)
                  next startSlot count ∧
                final.slotsOfRange next count ≤
                  alignUp (final.extentLeft startSlot) pageSize /
                    sectorSize } := by
        ext count
        constructor
        · rintro ⟨inLog, inBatch, inBytes, inRing, inExtent⟩
          exact ⟨⟨by omega, inBytes, inRing⟩, inExtent⟩
        · rintro ⟨⟨bounded, inBytes, inRing⟩, inExtent⟩
          exact ⟨by omega, by omega, inBytes, inRing, inExtent⟩
      rw [← admissible] at longest
      split
      · exact Or.inr ⟨_, rfl, longest, rfl, slots⟩
      · exact Or.inr ⟨_, rfl, longest, rfl, slots⟩
  · have longest := (capped_longest server next
      (min (server.lastLogIndex + 1 - next) server.maxAeBatch)).2
    refine longest.2 ⟨?_, Or.inl (le_refl 1)⟩
    omega
  · intro sentinel covered inMemory fits bound bounded
    unfold Server.lastLogIndex at inLog bounded
    exact takeEntries?_of_covered covered fits bound next 0 0 inMemory
      (by omega)

end

/-- A leader whose second entry takes three slots behind its no-op entry. -/
def fourSlotLeader : Server where
  raft := {
    currentTerm := 1
    id := 1
    state := .leader
    log := [{}, { term := 1 }, { term := 1, ringSlot := 1, cmdLen := 1000 }]
    cluster := [{ id := 1 }, { id := 2, nextIndex := 1 }]
    clusterIndex := 0 }
  ring := { RingLog.configure {} 2 with
    tailLogIndex := 3
    tailSlot := 4
    logSlotMap :=
      (∅ : SlotMap).insert 1 { start := 0, numSlots := 1, state := .using } }
  io := {
    extents := [{ logical := 0, physical := 8192, length := 8192 }] }

/-- The round to its follower takes the longest prefix that is admissible. -/
theorem fourSlotLeader_takes_longest :
    fourSlotLeader.Admissible 1 0 2 ∧
      wp (appendEntriesSend 1)
        (fun built _ =>
          built = none ∧ (fourSlotLeader.member 1).inflight = true ∨
            ∃ call,
              built = some call ∧
                IsGreatest { count | fourSlotLeader.Admissible 1 0 count }
                  call.lenEntries ∧
                call.req.numEntries = call.lenEntries ∧
                call.req.logBlockLength =
                  fourSlotLeader.slotsOfRange 1 call.lenEntries)
        (fun _ _ => fourSlotLeader.NoAddress 0) fourSlotLeader :=
  ⟨⟨by decide, by decide, Or.inr (by decide), by decide, by decide⟩,
    (clamps_take_longest rfl (by decide) rfl (by decide) (by decide)).1⟩

end NvmeofRaft
