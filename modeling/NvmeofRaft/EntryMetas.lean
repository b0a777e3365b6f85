import NvmeofRaft.AppendedCommands
import NvmeofRaft.FollowerSlots
import NvmeofRaft.SourceFidelity

namespace NvmeofRaft

/-!
# What the metadata of a request say

MetaBuild of `append_entries_worker` takes the length of an entry from its
command, and from `cmd_len` only for an entry with a `ring_slot`.
`apply_pending` clears the command and the `ring_slot` of what it has applied,
so a round for a slow follower that covers such an entry gives it the length
zero.
-/

/-- The ring file is one extent that holds all slots. -/
def RingLayout.Contiguous (layout : RingLayout) : Prop :=
  ∃ physical length,
    layout.extents = [{ logical := 0, physical, length }] ∧
      slotOffset layout.ringSlots ≤ length

namespace RingLayout.Contiguous

variable {layout : RingLayout}

theorem tiles
    (contiguous : layout.Contiguous) :
    Tiles 0 layout.extents := by
  obtain ⟨physical, length, extents, holds⟩ := contiguous
  rw [extents]
  refine ⟨rfl, ?_, trivial⟩
  have header : 0 < slotOffset layout.ringSlots :=
    Nat.add_pos_left (by decide) _
  exact Nat.lt_of_lt_of_le header holds

/-- Every slot of the ring is followed by the rest of the ring. -/
theorem bytesLeft_ge
    (contiguous : layout.Contiguous)
    {slot count : Nat}
    (some : 0 < count)
    (inRing : slot + count ≤ layout.ringSlots) :
    count * sectorSize ≤ bytesLeft layout.extents (slotOffset slot) := by
  obtain ⟨physical, length, extents, holds⟩ := contiguous
  have behind :
      slotOffset slot + count * sectorSize ≤
        slotOffset layout.ringSlots := by
    have slots := Nat.mul_le_mul_right sectorSize inRing
    rw [Nat.add_mul] at slots
    unfold slotOffset
    omega
  have bytes : 0 < count * sectorSize := Nat.mul_pos some (by decide)
  have covers :
      coveringExtent layout.extents (slotOffset slot) =
        .some { logical := 0, physical, length } := by
    rw [extents, coveringExtent, List.find?_singleton, if_pos]
    exact Extent.covers_iff.mpr ⟨Nat.zero_le _, by dsimp only; omega⟩
  rw [bytesLeft_of_covering covers]
  dsimp only
  omega

end RingLayout.Contiguous

/-- On a contiguous ring no round overruns an extent. -/
theorem overrunsExtent_of_contiguous
    {server : Server}
    (contiguous : server.layout.Contiguous)
    (next : Nat) :
    server.overrunsExtent next = false := by
  unfold Server.overrunsExtent
  split
  · rfl
  · rename_i startSlot _
    refine List.any_eq_false.mpr fun count _ overruns => ?_
    simp only [Bool.and_eq_true, decide_eq_true_eq] at overruns
    obtain ⟨fits, behind, -⟩ := overruns
    have some : 0 < server.slotsOfRange next count := by
      by_contra none
      rw [Nat.eq_zero_of_not_pos none, Nat.zero_mul] at behind
      exact Nat.not_lt_zero _ behind
    have inExtent := contiguous.bytesLeft_ge some fits.inRing
    exact absurd behind (Nat.not_lt.mpr inExtent)

/-- `apply_pending` has released the entry, and its command was not empty. -/
def Entry.released (entry : Entry) : Bool :=
  entry.command.isEmpty && decide (entry.ringSlot = 0 ∧ entry.cmdLen ≠ 0)

/-- Some round from the index on covers a released entry. -/
def Server.coversReleased
    (server : Server)
    (next : Nat) :
    Bool :=
  match server.startSlotOf next with
  | none => false
  | some startSlot =>
      (List.range (server.lastLogIndex + 2)).any fun count =>
        decide (server.RoundFits next startSlot count) &&
          (List.range count).any fun offset =>
            (server.logAt (next + offset)).released

/-- A round to a member covers a released entry. -/
def Server.sendsReleased
    (server : Server)
    (fi : Nat) :
    Bool :=
  (server.clampNext fi).coversReleased
    ((server.clampNext fi).member fi).nextIndex

/-- Lock B makes no I/O call. -/
theorem sendsReleased_withOutcomes
    (server : Server)
    (outcomes : IoOutcomes)
    (fi : Nat) :
    (server.withOutcomes outcomes).sendsReleased fi =
      server.sendsReleased fi := by
  have same :
      (server.withOutcomes outcomes).clampNext fi =
        (server.clampNext fi).withOutcomes outcomes :=
    rfl
  rw [Server.sendsReleased, Server.sendsReleased, same]
  simp only [Server.coversReleased, roundFits_withOutcomes]
  rfl

/-- MetaBuild gives the length of every command that is not released. -/
theorem Entry.Recalls.toMeta_cmdLen
    {entry : Entry}
    {command : List UInt8}
    {applied : Prop}
    (recalls : entry.Recalls command applied)
    (slot : entry.ringSlot = 0)
    (kept : entry.released = false) :
    entry.toMeta.cmdLen = command.length := by
  have length : entry.toMeta.cmdLen = entry.command.length :=
    if_neg fun deferred => deferred.2 slot
  rw [length]
  cases recalls with
  | intact same =>
      rw [same]
  | released _ empty stored =>
      have none : entry.cmdLen = 0 := by
        by_contra some
        simp [Entry.released, empty, slot, some] at kept
      rw [empty, ← stored, none]
      rfl

/-- What the metadata say about the entry at an offset of the batch. -/
structure AppendCall.DescribesEntry
    (call : AppendCall)
    (leader : Server)
    (first : Nat)
    (commands : List (List UInt8))
    (offset : Nat)
    (entryMeta : EntryMeta) : Prop where
  sent : call.req.entryMetas[offset]? = some entryMeta
  length :
    ∃ position command,
      call.next + offset = first + position ∧
        commands[position]? = some command ∧
          entryMeta.cmdLen = command.length
  slots :
    ∃ record,
      leader.ring.logSlotMap.lookup (call.next + offset) = some record ∧
        record.numSlots = slotsForEntry entryMeta.cmdLen

/-- How a follower ends that takes the part of the batch that is new to it. -/
structure AppendCall.FollowedBy
    (call : AppendCall)
    (leader follower after : Server) : Prop where
  tailSlot :
    after.ring.tailSlot =
      if call.req.startSlot + leader.slotsOfRange call.next call.lenEntries =
          follower.ring.ringSlots then 0
      else
        call.req.startSlot + leader.slotsOfRange call.next call.lenEntries
  tail : after.ring.tailLogIndex = call.next + call.lenEntries
  log :
    ∃ fresh,
      after.raft.log = follower.raft.log ++ fresh ∧
        fresh.length =
          call.lenEntries - (follower.ring.tailLogIndex - call.next) ∧
          ∀ position entry,
            fresh[position]? = some entry →
            ∃ record,
              leader.ring.logSlotMap.lookup
                  (call.next + (follower.ring.tailLogIndex - call.next) +
                    position) = some record ∧
                entry.ringSlot = record.start

/--
The metadata give the lengths of the commands with which the entries were
appended, and every follower to which some of the entries are new, with a ring
that is not smaller, places them at the slots of the leader.
-/
structure AppendCall.Describes
    (call : AppendCall)
    (leader : Server)
    (first : Nat)
    (commands : List (List UInt8)) : Prop where
  metas :
    ∀ offset,
      offset < call.lenEntries →
      ∃ entryMeta,
        call.DescribesEntry leader first commands offset entryMeta
  followed :
    ∀ (follower : Server) (there : Bool),
      follower.Succeeds →
      leader.ring.ringSlots ≤ follower.ring.ringSlots →
      follower.accepts call.req = true →
      follower.ring.tailLogIndex < call.next + call.lenEntries →
      ∃ rsp after,
        (handleAppendAlone true
            { call.req with dataAlreadyCopied := there }).run follower =
            .ok rsp after ∧
          rsp.success = true ∧ call.FollowedBy leader follower after

section

variable {proc : Process} {layout : RingLayout} {first : Nat}
variable {commands : List (List UInt8)}
variable (recalls : proc.Recalls layout first commands)
variable (small : proc.server.raft.log.length < 2 ^ 64)

include recalls small

/-- An entry with a slot record is in memory and recalls its command. -/
theorem Process.Recalls.logAt
    {logIdx : Nat}
    {record : SlotRecord}
    (held : proc.server.ring.logSlotMap.lookup logIdx = some record) :
    ∃ position command,
      logIdx = first + position ∧ commands[position]? = some command ∧
        record.numSlots = slotsForEntry command.length ∧
          (proc.server.logAt logIdx).ringSlot = 0 ∧
            (proc.server.logAt logIdx).Recalls command
              (logIdx < proc.server.raft.lastApplied) := by
  obtain ⟨position, command, rfl, found, slots⟩ :=
    recalls.records logIdx record held
  have inMemory := recalls.inMemory _ record held
  have tail : proc.server.ring.tailLogIndex = first + commands.length :=
    recalls.entries.tail
  have inside := (List.getElem?_eq_some_iff.mp found).1
  obtain ⟨entry, atEnd, slot, recalled⟩ :=
    recalls.entries.entries position command found
      (show _ < proc.server.raft.log.length by omega)
  have same : proc.server.logAt (first + position) = entry := by
    have atEnd' : proc.server.raft.log[proc.server.raft.log.length -
        (commands.length - position)]? = .some entry :=
      atEnd
    have fromEnd :
        proc.server.ring.tailLogIndex - (first + position) =
          commands.length - position := by
      omega
    rw [Server.logAt, logSlice_fromEnd small (by omega) inMemory, fromEnd,
      List.getD_eq_getElem?_getD, atEnd']
    rfl
  rw [same]
  exact ⟨position, command, rfl, found, slots, slot, recalled⟩

variable {fi : Nat} {outcomes : IoOutcomes} {call : AppendCall}
variable {next : Nat} {plan : RoundPlan}
variable (contiguous : layout.Contiguous)
variable
  (planned :
    call.PlannedBy ((proc.server.withOutcomes outcomes).clampNext fi) next
      plan)

omit small in
include contiguous planned in
/-- On a contiguous ring a data-bearing request is faithful. -/
theorem Process.Recalls.faithful :
    call.Faithful proc.server := by
  obtain ⟨bounded, filled⟩ := planned
  have chain := recalls.chaining.chain
  have same :
      ((proc.server.withOutcomes outcomes).clampNext fi).layout = layout :=
    recalls.layout
  have contiguous :
      ((proc.server.withOutcomes outcomes).clampNext
        fi).layout.Contiguous :=
    same ▸ contiguous
  have faithful :
      call.Faithful ((proc.server.withOutcomes outcomes).clampNext fi) := by
    rw [filled]
    exact bounded.faithful contiguous.tiles chain.chained
      (Nat.zero_lt_of_lt chain.below) recalls.chaining.wellformed.positive
      (overrunsExtent_of_contiguous contiguous next)
  obtain ⟨records, slots, image⟩ := faithful.of_clampNext
  simp only [slotsOfRange_withOutcomes] at records slots
  exact ⟨records, slots, image⟩

include contiguous planned in
/-- The metadata of a round that covers no released entry. -/
theorem Process.Recalls.describesEntry
    (kept :
      ((proc.server.withOutcomes outcomes).clampNext fi).coversReleased
        next = false)
    {offset : Nat}
    (inside : offset < call.lenEntries) :
    ∃ entryMeta,
      call.DescribesEntry proc.server first commands offset entryMeta := by
  obtain ⟨record, held, -⟩ :=
    (recalls.faithful contiguous planned).records offset inside
  obtain ⟨bounded, filled⟩ := planned
  obtain ⟨position, command, same, found, slots, slot, recalled⟩ :=
    recalls.logAt small held
  have unreleased :
      (proc.server.logAt (call.next + offset)).released = false := by
    have inLog := bounded.fits.inLog
    rw [filled] at inside ⊢
    rw [Server.coversReleased, bounded.started] at kept
    have none := List.any_eq_false.mp kept plan.lenEntries
      (List.mem_range.mpr (by omega))
    simp only [bounded.fits, decide_true, Bool.true_and, Bool.not_eq_true]
      at none
    exact Bool.eq_false_iff.mpr
      (List.any_eq_false.mp none offset (List.mem_range.mpr inside))
  have length := recalled.toMeta_cmdLen slot unreleased
  refine ⟨(proc.server.logAt (call.next + offset)).toMeta, ?_,
    ⟨position, command, same, found, length⟩,
    record, held, by rw [length, slots]⟩
  rw [filled] at inside ⊢
  show ((List.range plan.lenEntries).map _)[offset]? = _
  rw [List.getElem?_map, List.getElem?_range inside]
  rfl

end

section

variable {call : AppendCall} {leader : Server} {first : Nat}
variable {commands : List (List UInt8)}
variable
  (metas :
    ∀ offset,
      offset < call.lenEntries →
      ∃ entryMeta,
        call.DescribesEntry leader first commands offset entryMeta)

include metas

/-- The follower counts the slots that the leader has recorded. -/
theorem slotsOfMetas_take :
    ∀ count,
      count ≤ call.lenEntries →
      slotsOfMetas (call.req.entryMetas.take count) =
        leader.slotsOfRange call.next count := by
  intro count
  induction count with
  | zero =>
      intro _
      rw [List.take_zero]
      rfl
  | succ count inductionHypothesis =>
      intro inside
      obtain ⟨entryMeta, sent, -, record, held, slots⟩ := metas count inside
      rw [slotsOfMetas_take_succ sent,
        inductionHypothesis (Nat.le_of_succ_le inside), Server.slotsOfRange,
        slotsForLogIndex_of_lookup held, slots]

variable (counted : call.req.entryMetas.length = call.lenEntries)

include counted in
/-- The metas of a batch give the slots that the leader has recorded for it. -/
theorem slotsOfMetas_batch :
    slotsOfMetas call.req.entryMetas =
      leader.slotsOfRange call.next call.lenEntries := by
  rw [← slotsOfMetas_take metas call.lenEntries (le_refl _), ← counted,
    List.take_length]

variable (faithful : call.Faithful leader)
variable (previous : call.req.prevLogIndex + 1 = call.next)

include faithful counted previous

/-- The entries that are new to a follower get the slots of the leader. -/
theorem AppendCall.followedBy_of_follows
    {follower after : Server}
    {there : Bool}
    (number : call.req.numEntries = call.lenEntries)
    (follows :
      follower.Follows { call.req with dataAlreadyCopied := there } after) :
    call.FollowedBy leader follower after := by
  obtain ⟨tailSlot, tail, log⟩ := follows
  have whole := slotsOfMetas_batch metas counted
  dsimp only at tailSlot tail log
  rw [whole] at tailSlot
  rw [previous, number] at tail
  rw [previous] at log
  refine ⟨tailSlot, tail, _, log, ?_, ?_⟩
  · rw [List.length_drop, placedEntries_length, counted]
  · intro position entry found
    rw [List.getElem?_drop] at found
    have slot := placedEntries_ringSlot _ _ _ _ found
    have inside :=
      (List.getElem?_eq_some_iff.mp found).1
    rw [placedEntries_length, counted] at inside
    obtain ⟨record, held, start⟩ := faithful.records _ inside
    refine ⟨record, by rw [Nat.add_assoc]; exact held, ?_⟩
    rw [slot, slotsOfMetas_take metas _ (Nat.le_of_lt inside), start]

/-- A follower that takes a part of the batch places it as the leader did. -/
theorem AppendCall.followed
    {follower : Server}
    (there : Bool)
    (number : call.req.numEntries = call.lenEntries)
    (source : call.req.leaderPbaSrc ≠ 0)
    (inRing :
      call.req.startSlot + leader.slotsOfRange call.next call.lenEntries ≤
        follower.ring.ringSlots)
    (succeeds : follower.Succeeds)
    (accepts : follower.accepts call.req = true)
    (fresh : follower.ring.tailLogIndex < call.next + call.lenEntries)
    (data : 0 < call.lenEntries) :
    ∃ rsp after,
      (handleAppendAlone true
          { call.req with dataAlreadyCopied := there }).run follower =
          .ok rsp after ∧
        rsp.success = true ∧ call.FollowedBy leader follower after := by
  have whole := slotsOfMetas_batch metas counted
  have needs :
      follower.Needs { call.req with dataAlreadyCopied := there } := by
    refine ⟨⟨counted.trans number.symm, fun _ => source⟩, number ▸ data, ?_,
      ?_⟩
    · dsimp only
      rw [previous, number]
      exact fresh
    · dsimp only
      rw [whole]
      exact inRing
  have returns := wp_and
    (handleAppendAlone_unfailing true
      { call.req with dataAlreadyCopied := there } follower succeeds)
    (handleAppendAlone_follows accepts needs)
  unfold wp at returns
  cases ended :
      (handleAppendAlone true
        { call.req with dataAlreadyCopied := there }).run follower with
  | ok rsp after =>
      rw [ended] at returns
      obtain ⟨-, success, follows⟩ := returns
      exact ⟨rsp, after, rfl, success,
        call.followedBy_of_follows metas counted faithful previous number
          follows⟩
  | error exn after =>
      rw [ended] at returns
      exact returns.1.elim

end

/-- A data-bearing request of a leader that recalls its commands. -/
theorem Process.Recalls.describes
    {proc : Process}
    {layout : RingLayout}
    {first fi : Nat}
    {commands : List (List UInt8)}
    {outcomes : IoOutcomes}
    {call : AppendCall}
    (recalls : proc.Recalls layout first commands)
    (small : proc.server.raft.log.length < 2 ^ 64)
    (contiguous : layout.Contiguous)
    (kept : proc.server.sendsReleased fi = false)
    (built :
      (proc.server.withOutcomes outcomes).builtCall? fi = some call)
    (data : 0 < call.lenEntries) :
    call.Describes proc.server first commands := by
  have positive := recalls.chaining.wellformed.positive
  have tiled : Tiles 0 (proc.server.withOutcomes outcomes).io.extents :=
    (congrArg (fun layout => Tiles 0 layout.extents) recalls.layout).mpr
      contiguous.tiles
  obtain ⟨plan, planned⟩ :=
    wp_builtCall (appendEntriesSend_planned tiled positive) built data
  have source : call.req.leaderPbaSrc ≠ 0 := by
    have spec :
        wp (appendEntriesSend fi)
          (fun built _ =>
            ∀ call,
              built = some call →
              0 < call.lenEntries → call.req.leaderPbaSrc ≠ 0)
          (fun _ _ => True) (proc.server.withOutcomes outcomes) :=
      wp_mono (appendEntriesSend_spec fi positive)
        (fun _ _ ends call sent => (ends.2 call sent).1.located)
        fun _ _ _ => trivial
    exact wp_builtCall spec built data
  have kept :
      ((proc.server.withOutcomes outcomes).clampNext fi).coversReleased
        _ = false :=
    (sendsReleased_withOutcomes proc.server outcomes fi).trans kept
  have faithful := recalls.faithful contiguous planned
  have metas :
      ∀ offset,
        offset < call.lenEntries →
        ∃ entryMeta,
          call.DescribesEntry proc.server first commands offset entryMeta :=
    fun _ inside => recalls.describesEntry small contiguous planned kept inside
  obtain ⟨bounded, filled⟩ := planned
  have counted : call.req.entryMetas.length = call.lenEntries := by
    rw [filled]
    exact (List.length_map _).trans List.length_range
  have previous : call.req.prevLogIndex + 1 = call.next := by
    obtain ⟨record, held, -⟩ := faithful.records 0 data
    have above := (recalls.chaining.chain.chained.range _ _ held).1
    have same : call.req.prevLogIndex = call.next - 1 := by
      rw [filled]
      rfl
    omega
  refine ⟨metas, fun follower there succeeds larger accepts fresh => ?_⟩
  refine AppendCall.followed metas counted faithful previous there ?_ source
    ?_ succeeds accepts fresh data
  · rw [filled]
    rfl
  · have inRing := bounded.fits.inRing
    simp only [slotsOfRange_clampNext, slotsOfRange_withOutcomes] at inRing
    rw [filled]
    exact inRing.trans larger

/--
EntryMeta fidelity: over a leadership on a contiguous ring, in which no append
handler from before the election finishes and whose I/O calls succeed, a
data-bearing request that Lock B builds for a member gives the lengths of the
commands with which its entries were appended and the slots that the leader has
recorded for them, and its followers place the entries there, unless a round to
the member covers an entry that `apply_pending` has released.
-/
theorem metas_describe_commands
    {n : Nat}
    {members : Membership n}
    {settings : Fin n → Settings}
    {node : Fin n}
    {before inputs : List Input}
    {candidate leader proc : Process}
    {election : Input}
    {first fi : Nat}
    {held : List (List UInt8)}
    {outcomes : IoOutcomes}
    {call : AppendCall}
    (campaign :
      (members.boot settings node).Reaches before candidate)
    (wins : candidate.node.wins election.act = true)
    (elected : candidate.advance election = some leader)
    (written : election.outcomes.succeed = true)
    (contiguous : candidate.server.layout.Contiguous)
    (inherits : candidate.Inherits leader first held)
    (run :
      runWhile soundLeadership Process.advance leader inputs = some proc)
    (small :
      leader.server.raft.log.length +
          (appendedCommands leader inputs).length < 2 ^ 64)
    (kept : proc.server.sendsReleased fi = false)
    (built :
      (proc.server.withOutcomes outcomes).builtCall? fi = some call)
    (data : 0 < call.lenEntries) :
    call.Describes proc.server first
      (held ++ [[]] ++ appendedCommands leader inputs) := by
  have started := run_started (boot_started members settings node) campaign
  have starts :
      leader.Recalls candidate.server.layout first (held ++ [[]]) :=
    Process.Recalls.of_election started wins written elected
      contiguous.tiles inherits
  obtain ⟨recalls, bounded⟩ :=
    Process.Recalls.run contiguous.tiles starts small run
  exact recalls.describes bounded contiguous kept built data

/--
A command of two slots is committed with the answer of the second member and
applied; the third member has not got it yet.
-/
def laggingMember : List Input :=
  [{ act := .apply 7 [List.replicate 600 1] }, { act := .applySpawn 0 },
   { act := .appendSend 0 },
   { act := .appendReply 0 { term := 1, success := true } },
   { act := mainAct false }, { act := mainAct false },
   { act := mainAct false }, { act := .applyPending }]

theorem smallRing_contiguous
    {layout : RingLayout}
    (same : layout = { ringSlots := 15, extents := smallRing.extents }) :
    layout.Contiguous := by
  rw [same]
  exact ⟨4096, 8192, rfl, by decide⟩

/-- The second member is sent the next command only. -/
theorem next_command_described :
    ∃ candidate leader proc call,
      firstNode.Reaches firstCampaign candidate ∧
        candidate.advance { act := mainAct false } = some leader ∧
          runWhile soundLeadership Process.advance leader
              (laggingMember ++ [{ act := .apply 8 [[9]] }]) = some proc ∧
            (proc.server.withOutcomes {}).builtCall? 1 = some call ∧
              call.next = 3 ∧
                call.Describes proc.server 1
                  ([[]] ++ [List.replicate 600 1, [9]]) := by
  obtain ⟨candidate, campaign, passes⟩ :
      ∃ candidate,
        runWhile (fun _ _ => true) Process.advance firstNode
            firstCampaign = some candidate ∧
          (candidate.node.wins (mainAct false) &&
            (decide (candidate.server.ring.tailLogIndex = 1 ∧
                candidate.server.ring.logSlotMap.entries.length = 0 ∧
                candidate.server.ring.ringSlots = 15 ∧
                candidate.server.io.extents = smallRing.extents) &&
              (candidate.advance { act := mainAct false }).any fun leader =>
                decide (leader.server.raft.log.length = 2 ∧
                    appendedCommands leader
                      (laggingMember ++ [{ act := .apply 8 [[9]] }]) =
                        [List.replicate 600 1, [9]]) &&
                  (runWhile soundLeadership Process.advance leader
                    (laggingMember ++ [{ act := .apply 8 [[9]] }])).any
                      fun proc =>
                        !proc.server.sendsReleased 1 &&
                          ((proc.server.withOutcomes {}).builtCall? 1).any
                            fun call =>
                              decide (call.next = 3 ∧
                                call.lenEntries = 1))) = true :=
    runWhile_exists (by decide +kernel)
  obtain ⟨wins, passes⟩ := Bool.and_eq_true_iff.mp passes
  obtain ⟨begins, passes⟩ := Bool.and_eq_true_iff.mp passes
  obtain ⟨tail, none, ringSlots, extents⟩ := of_decide_eq_true begins
  obtain ⟨leader, elected, passes⟩ := (Option.any_eq_true _ _).mp passes
  obtain ⟨starts, passes⟩ := Bool.and_eq_true_iff.mp passes
  obtain ⟨length, appended⟩ := of_decide_eq_true starts
  obtain ⟨proc, run, passes⟩ := (Option.any_eq_true _ _).mp passes
  obtain ⟨kept, passes⟩ := Bool.and_eq_true_iff.mp passes
  obtain ⟨call, built, sent⟩ := (Option.any_eq_true _ _).mp passes
  obtain ⟨three, one⟩ := of_decide_eq_true sent
  have contiguous : candidate.server.layout.Contiguous :=
    smallRing_contiguous (congrArg₂ RingLayout.mk ringSlots extents)
  have inherits :=
    Process.Inherits.of_noRecords
      (run_started (boot_started _ _ _) campaign) wins rfl elected
      contiguous.tiles (List.eq_nil_of_length_eq_zero none)
  have describes := metas_describe_commands campaign wins elected rfl
    contiguous inherits run
    (by rw [length, appended]; decide) (by simpa using kept) built
    (by omega)
  rw [tail, appended] at describes
  exact ⟨candidate, leader, proc, call, campaign, elected, run, built, three,
    describes⟩

/--
Every data-bearing request of every leadership of a node on a contiguous ring
gives the lengths and the slots of its entries.
-/
def DescribesCommands (start : Process) : Prop :=
  ∀ before candidate election leader inputs proc fi call first held,
    start.Reaches before candidate →
    candidate.node.wins election.act = true →
    candidate.advance election = some leader →
    election.outcomes.succeed = true →
    candidate.server.layout.Contiguous →
    candidate.Inherits leader first held →
    runWhile soundLeadership Process.advance leader inputs = some proc →
    (proc.server.withOutcomes {}).builtCall? fi = some call →
    0 < call.lenEntries →
    call.Describes proc.server first
      (held ++ [[]] ++ appendedCommands leader inputs)

/-- The third member is told that the applied command is empty. -/
theorem applied_command_misdescribed :
    ¬ DescribesCommands firstNode := by
  intro describes
  obtain ⟨candidate, campaign, passes⟩ :
      ∃ candidate,
        runWhile (fun _ _ => true) Process.advance firstNode
            firstCampaign = some candidate ∧
          (candidate.node.wins (mainAct false) &&
            (decide (candidate.server.ring.tailLogIndex = 1 ∧
                candidate.server.ring.logSlotMap.entries.length = 0 ∧
                candidate.server.ring.ringSlots = 15 ∧
                candidate.server.io.extents = smallRing.extents) &&
              (candidate.advance { act := mainAct false }).any fun leader =>
                decide (appendedCommands leader laggingMember =
                    [List.replicate 600 1]) &&
                  (runWhile soundLeadership Process.advance leader
                    laggingMember).any fun proc =>
                      ((proc.server.withOutcomes {}).builtCall? 2).any
                        fun call =>
                          decide (call.next = 1 ∧ call.lenEntries = 2 ∧
                            call.req.entryMetas.map EntryMeta.cmdLen =
                              [0, 0]))) = true :=
    runWhile_exists (by decide +kernel)
  obtain ⟨wins, passes⟩ := Bool.and_eq_true_iff.mp passes
  obtain ⟨begins, passes⟩ := Bool.and_eq_true_iff.mp passes
  obtain ⟨tail, none, ringSlots, extents⟩ := of_decide_eq_true begins
  obtain ⟨leader, elected, passes⟩ := (Option.any_eq_true _ _).mp passes
  obtain ⟨appended, passes⟩ := Bool.and_eq_true_iff.mp passes
  obtain ⟨proc, run, passes⟩ := (Option.any_eq_true _ _).mp passes
  obtain ⟨call, built, sent⟩ := (Option.any_eq_true _ _).mp passes
  obtain ⟨next, two, lengths⟩ := of_decide_eq_true sent
  have contiguous : candidate.server.layout.Contiguous :=
    smallRing_contiguous (congrArg₂ RingLayout.mk ringSlots extents)
  have inherits :=
    Process.Inherits.of_noRecords
      (run_started (boot_started _ _ _) campaign) wins rfl elected
      contiguous.tiles (List.eq_nil_of_length_eq_zero none)
  obtain ⟨entryMeta, sent, ⟨position, command, same, found, length⟩, -⟩ :=
    (describes _ _ _ _ _ _ _ _ _ _ campaign wins elected rfl contiguous
      inherits run built (by omega)).metas 1 (by omega)
  obtain rfl : position = 1 := by omega
  rw [of_decide_eq_true appended] at found
  have told : entryMeta.cmdLen = 0 := by
    have listed := congrArg (fun lengths => lengths[1]?) lengths
    simpa [sent] using listed
  have whole : command = List.replicate 600 1 := (Option.some.inj found).symm
  rw [told, whole, List.length_replicate] at length
  omega

end NvmeofRaft
