import NvmeofRaft.AdmittedBatch
import NvmeofRaft.AppendEntriesWire
import NvmeofRaft.RdmaTransport

namespace NvmeofRaft

/-!
# Batches that no RDMA message holds

The limits of a batch are set in entries and in bytes of the ring, the limit of
a message in bytes of metadata.  A round has as many entries as its own limits
admit, so a backlog long enough makes a request that `encode_frame` refuses.
-/

/-- `rpc_method::kAppendEntries`. -/
def appendEntriesMethod : List UInt8 :=
  "Server.HandleAppendEntriesRequest".toList.map fun letter =>
    UInt8.ofNat letter.toNat

/-- The bytes of a message that the header and the method leave. -/
def frameRoom : Nat :=
  rdmaMaxMessageBytes - rdmaHdrBytes - appendEntriesMethod.length

/-- The entries whose metadata fit beside the other fields in any case. -/
def safeBatch : Nat :=
  (frameRoom - 200) / 24

/--
The request that is sent; with leader-side replication the worker marks the
data as copied first.
-/
def AppendCall.sentReq
    (call : AppendCall)
    (copied : Bool) :
    AppendEntriesRequest :=
  { call.req with dataAlreadyCopied := copied }

/-- The serialised request of a call. -/
def AppendCall.body
    (call : AppendCall)
    (format : ProtoFormat)
    (copied : Bool) :
    List UInt8 :=
  format.serialize (call.sentReq copied).toProto

/-- The frame of the call's request. -/
def AppendCall.frame
    (call : AppendCall)
    (format : ProtoFormat)
    (copied : Bool) :
    Option (List UInt8) :=
  encodeFrame appendEntriesMethod (call.body format copied)

/-- `encode_frame` accepts the request, and the frame keeps the limit. -/
def AppendCall.FitsMessage
    (call : AppendCall)
    (format : ProtoFormat)
    (copied : Bool) : Prop :=
  ∃ frame,
    call.frame format copied = some frame ∧
      frame.length ≤ rdmaMaxMessageBytes

theorem frameRoom_eq :
    frameRoom = 1048535 ∧ safeBatch = 43680 := by
  decide

theorem encodeFrame_fits
    {body : List UInt8}
    (fits : body.length ≤ frameRoom) :
    ∃ frame,
      encodeFrame appendEntriesMethod body = some frame ∧
        frame.length ≤ rdmaMaxMessageBytes := by
  have room : 0 < frameRoom := by decide
  have total :
      rdmaHdrBytes + appendEntriesMethod.length + body.length ≤
        rdmaMaxMessageBytes := by
    unfold frameRoom at fits room
    omega
  refine ⟨_, if_neg (Nat.not_lt.mpr total), ?_⟩
  simp only [List.length_append, putBe32, List.length_cons, List.length_nil]
  exact total

theorem encodeFrame_refuses
    {body : List UInt8}
    (tooLarge : frameRoom < body.length) :
    encodeFrame appendEntriesMethod body = none := by
  refine if_pos ?_
  unfold frameRoom at tooLarge
  omega

/-- The bytes of the metadata of as many entries from `next_index` on. -/
def Server.metaBytes
    (server : Server)
    (format : ProtoFormat)
    (fi count : Nat) :
    Nat :=
  ((List.range count).map fun offset =>
    format.metaBytes
      (server.logAt (server.nextOf fi + offset)).toMeta.toProto).sum

section

variable (server : Server) (format : ProtoFormat) (fi : Nat)

theorem metaBytes_succ
    (count : Nat) :
    server.metaBytes format fi (count + 1) =
      server.metaBytes format fi count +
        format.metaBytes
          (server.logAt (server.nextOf fi + count)).toMeta.toProto := by
  rw [Server.metaBytes, List.range_succ, List.map_append, List.sum_append,
    List.map_singleton, List.sum_singleton]
  rfl

theorem metaBytes_monotone :
    Monotone (server.metaBytes format fi) :=
  monotone_nat_of_le_succ fun count => by
    rw [metaBytes_succ]
    exact Nat.le_add_right _ _

theorem metaBytes_le
    (count : Nat) :
    server.metaBytes format fi count ≤ 24 * count := by
  induction count with
  | zero =>
      exact le_refl _
  | succ count inductionHypothesis =>
      have most := format.metaMost
        (server.logAt (server.nextOf fi + count)).toMeta.toProto
      rw [metaBytes_succ]
      omega

variable {server fi}

/-- Entries with a term take four bytes each. -/
theorem le_metaBytes
    {count : Nat}
    (terms :
      ∀ offset < count,
        (server.logAt (server.nextOf fi + offset)).toMeta.toProto.term ≠ 0) :
    4 * count ≤ server.metaBytes format fi count := by
  induction count with
  | zero =>
      exact Nat.zero_le _
  | succ count inductionHypothesis =>
      have earlier := inductionHypothesis fun offset held =>
        terms offset (Nat.lt_succ_of_lt held)
      have least := format.metaLeast _ (terms count (Nat.lt_succ_self count))
      rw [metaBytes_succ]
      omega

end

namespace AppendCall.Longest

variable {call : AppendCall} {server : Server} {fi : Nat}
variable (longest : call.Longest server fi)
variable (format : ProtoFormat) (copied : Bool)

include longest

theorem length_body :
    ∃ fields ≤ 200,
      (call.body format copied).length =
        fields + server.metaBytes format fi call.lenEntries := by
  have metas :
      (((call.sentReq copied).toProto.entryMetas).map format.metaBytes).sum =
        server.metaBytes format fi call.lenEntries := by
    show ((call.req.entryMetas.map EntryMeta.toProto).map
      format.metaBytes).sum = _
    rw [longest.metas, List.map_map, List.map_map]
    rfl
  exact ⟨_, format.fieldsMost (call.sentReq copied).toProto,
    (format.length _).trans (congrArg (_ + ·) metas)⟩

/-- Few enough bytes of metadata leave room for the other fields. -/
theorem fits
    (small :
      ∀ count, server.Admits fi count →
        server.metaBytes format fi count + 200 ≤ frameRoom) :
    call.FitsMessage format copied := by
  obtain ⟨fields, few, length⟩ := longest.length_body format copied
  have metas :
      server.metaBytes format fi call.lenEntries + 200 ≤ frameRoom := by
    rcases longest.admitted with none | admits
    · rw [none]
      exact show 0 + 200 ≤ frameRoom by decide
    · exact small _ admits
  exact encodeFrame_fits (by omega)

/-- Too many bytes of metadata are refused, whatever the other fields take. -/
theorem refused
    {count : Nat}
    (admits : server.Admits fi count)
    (tooLarge : frameRoom < server.metaBytes format fi count) :
    call.frame format copied = none := by
  obtain ⟨fields, -, length⟩ := longest.length_body format copied
  have more :=
    metaBytes_monotone server format fi (longest.longest count admits)
  exact encodeFrame_refuses (by omega)

end AppendCall.Longest

/-- A serialiser that takes as many bytes as it may. -/
def largestFormat : ProtoFormat where
  serialize req := List.replicate (200 + 24 * req.entryMetas.length) 0
  metaBytes _ := 24
  fieldBytes _ := 200
  length req := by
    rw [List.length_replicate, List.map_const', List.sum_replicate]
    exact congrArg (200 + ·) (Nat.mul_comm _ _)
  metaLeast _ _ := by decide
  metaMost _ := le_refl _
  fieldsMost _ := le_refl _

theorem AppendCall.Longest.length_largest
    {call : AppendCall}
    {server : Server}
    {fi : Nat}
    (longest : call.Longest server fi) :
    (call.body largestFormat false).length = 200 + 24 * call.lenEntries := by
  refine List.length_replicate.trans (congrArg (200 + 24 * ·) ?_)
  show (call.req.entryMetas.map _).length = call.lenEntries
  rw [longest.metas, List.length_map, List.length_map, List.length_range]

/--
An append request is sent whatever bytes protobuf makes of it exactly if the
limits of the round admit no more entries than fit in any case.  For a given
serialiser, what decides is the metadata of the entries that are admitted.
-/
theorem batch_fits_message_iff
    {server : Server}
    {fi : Nat}
    {call : AppendCall}
    (inRing :
      ∀ startSlot, server.startSlotOf (server.nextOf fi) = some startSlot →
        startSlot ≤ server.ring.ringSlots)
    (built : server.builtCall? fi = some call) :
    ((∀ format copied, call.FitsMessage format copied) ↔
        ∀ count, server.Admits fi count → count ≤ safeBatch) ∧
      ∀ format copied,
        ((∀ count, server.Admits fi count →
            server.metaBytes format fi count + 200 ≤ frameRoom) →
          call.FitsMessage format copied) ∧
        ∀ count,
          server.Admits fi count →
          frameRoom < server.metaBytes format fi count →
          call.frame format copied = none := by
  have longest := built_longest inRing built
  obtain ⟨room, safe⟩ := frameRoom_eq
  refine ⟨⟨fun fits count admits => ?_, fun few format copied => ?_⟩,
    fun format copied => ⟨longest.fits format copied, fun count admits =>
      longest.refused format copied admits⟩⟩
  · -- The largest serialisation fits only with few enough entries.
    obtain ⟨frame, accepted, -⟩ := fits largestFormat false
    have inRoom : (call.body largestFormat false).length ≤ frameRoom := by
      by_contra tooLarge
      rw [AppendCall.frame,
        encodeFrame_refuses (Nat.not_le.mp tooLarge)] at accepted
      cases accepted
    rw [longest.length_largest] at inRoom
    have bound := longest.longest count admits
    omega
  · refine longest.fits format copied fun count admits => ?_
    have bound := metaBytes_le server format fi count
    have entries := few count admits
    omega

/-- The records of one-slot entries from index 1 on. -/
def backlogSlots (count : Nat) : SlotMap where
  entries := (List.range count).map fun slot =>
    ⟨slot + 1, { start := slot, numSlots := 1, state := .using }⟩
  nodupKeys := by
    rw [List.NodupKeys, List.keys, List.map_map]
    exact (List.nodup_range).map Nat.succ_injective

/--
A leader with the default limits and the default ring in one extent.  Its
entries take one slot each; one follower has them all, the other has none.
-/
def backlogLeader (count : Nat) : Server where
  raft := {
    currentTerm := 1
    id := 1
    state := .leader
    log := {} :: List.replicate count { term := 1, cmdLen := 1 }
    commitIndex := count
    lastApplied := count + 1
    cluster := [
      { id := 1 },
      { id := 2, nextIndex := 1 },
      { id := 3, nextIndex := count + 1, matchIndex := count }]
    clusterIndex := 0 }
  ring := {
    tailLogIndex := count + 1
    tailSlot := count
    logSlotMap := backlogSlots count }
  io := {
    extents := [{
      logical := 0
      physical := 2 ^ 40
      length := defaultNumPages * pageSize }] }

section

variable {count : Nat}

theorem backlogLeader_lookup
    {slot : Nat}
    (held : slot < count) :
    (backlogLeader count).ring.logSlotMap.lookup (slot + 1) =
      some { start := slot, numSlots := 1, state := .using } := by
  refine AList.mem_lookup_iff.mpr ?_
  exact List.mem_map.mpr ⟨slot, List.mem_range.mpr held, rfl⟩

theorem backlogLeader_nextOf :
    (backlogLeader count).nextOf 1 = 1 := by
  rw [(member_clampNext _ _).2]
  exact min_eq_left (Nat.le_add_left 1 _)

theorem backlogLeader_slots
    {part : Nat}
    (some : part ≤ count) :
    (backlogLeader count).slotsOfRange 1 part = part := by
  induction part with
  | zero =>
      rfl
  | succ part inductionHypothesis =>
      have earlier := inductionHypothesis (Nat.le_of_succ_le some)
      rw [Server.slotsOfRange, earlier, Server.slotsForLogIndex,
        Nat.add_comm 1 part, backlogLeader_lookup some]

theorem backlogLeader_term
    {offset : Nat}
    (held : offset < count) :
    ((backlogLeader count).logAt
        ((backlogLeader count).nextOf 1 + offset)).toMeta.toProto.term ≠ 0 := by
  have oldest : (backlogLeader count).oldestLogIndex = 1 := by
    show sub64 (count + 1) ((List.replicate count _).length + 1 - 1) = 1
    rw [List.length_replicate, sub64_of_le (by omega)]
    omega
  have slice : (backlogLeader count).logSlice (1 + offset) = offset + 1 := by
    rw [Server.logSlice, oldest, sub64_of_le (by omega)]
    omega
  have entry :
      (backlogLeader count).logAt (1 + offset) =
        { term := 1, cmdLen := 1 } := by
    rw [Server.logAt, slice]
    show (List.replicate count _).getD offset ({} : Entry) = _
    rw [List.getD_eq_getElem?_getD, List.getElem?_replicate, if_pos held]
    rfl
  rw [backlogLeader_nextOf, entry]
  decide

theorem backlogLeader_start
    (positive : 0 < count) :
    (backlogLeader count).startSlotOf 1 = some 0 := by
  have found := backlogLeader_lookup positive
  rw [Nat.zero_add] at found
  rw [Server.startSlotOf, if_neg (by rintro ⟨⟨⟩, -⟩), found]
  rfl

theorem backlogLeader_admits
    (positive : 0 < count)
    (inBatch : count ≤ defaultMaxAeBatch) :
    (backlogLeader count).Admits 1 count := by
  rw [Server.Admits, backlogLeader_nextOf]
  have slots := backlogLeader_slots (le_refl count)
  have limits :
      defaultMaxAeBatch * sectorSize ≤ defaultMaxAeBatchBytes ∧
        defaultMaxAeBatch ≤ (backlogLeader 0).ring.ringSlots ∧
        defaultMaxAeBatch ≤
          alignUp ((backlogLeader 0).extentLeft 0) pageSize / sectorSize := by
    decide
  refine ⟨0, backlogLeader_start positive, ?_, inBatch, Or.inr ?_, ?_, ?_⟩
  · show 1 + count ≤ count + 1 - 1 + 1
    omega
  · rw [slots]
    exact (Nat.mul_le_mul_right _ inBatch).trans limits.1
  · rw [slots, Nat.zero_add]
    exact inBatch.trans limits.2.1
  · rw [slots]
    exact inBatch.trans limits.2.2

theorem backlogLeader_inRing
    (positive : 0 < count) :
    ∀ startSlot,
      (backlogLeader count).startSlotOf ((backlogLeader count).nextOf 1) =
          some startSlot →
        startSlot ≤ (backlogLeader count).ring.ringSlots := by
  intro startSlot started
  rw [backlogLeader_nextOf, backlogLeader_start positive] at started
  cases started
  exact Nat.zero_le _

/-- Lock B builds a request for the follower without entries. -/
theorem backlogLeader_built
    (positive : 0 < count) :
    ∃ call, (backlogLeader count).builtCall? 1 = some call := by
  have spec := appendEntriesSend_longest (backlogLeader_inRing positive)
  unfold wp at spec
  unfold Server.builtCall?
  cases ended : (appendEntriesSend 1).run (backlogLeader count) with
  | ok built final =>
      rw [ended] at spec
      rcases spec with ⟨-, inflight⟩ | ⟨call, built, -⟩
      · cases inflight
      · exact ⟨call, built⟩
  | error exn final =>
      rw [ended] at spec
      obtain ⟨startSlot, started, nowhere⟩ := spec
      rw [backlogLeader_nextOf, backlogLeader_start positive] at started
      cases started
      -- The extent begins at a positive device address.
      have located :
          lookup (backlogLeader 0).io.extents (slotOffset 0) 1 =
            .ok { pba := 2 ^ 40 + 512, len := 1 } := by
        decide
      exact absurd (nowhere 1 _ located) (by decide)

end

/-- A short backlog is sent, whatever protobuf makes of it. -/
theorem short_backlog_sent :
    ∃ call,
      (backlogLeader 2).builtCall? 1 = some call ∧
        ∀ format copied, call.FitsMessage format copied := by
  have positive : 0 < 2 := by decide
  obtain ⟨call, built⟩ := backlogLeader_built positive
  refine ⟨call, built, (batch_fits_message_iff
    (backlogLeader_inRing positive) built).1.mpr ?_⟩
  rintro count ⟨startSlot, -, admissible⟩
  have inLog := admissible.inLog
  rw [backlogLeader_nextOf] at inLog
  have last : (backlogLeader 2).lastLogIndex = 2 := rfl
  have safe := frameRoom_eq.2
  omega

/--
A follower that lags 300000 entries behind is never sent its batch, although
all limits and the ring have their default sizes.
-/
theorem long_backlog_refused :
    (backlogLeader 300000).raft.state = .leader ∧
      (backlogLeader 300000).maxAeBatch = defaultMaxAeBatch ∧
      (backlogLeader 300000).maxAeBatchBytes = defaultMaxAeBatchBytes ∧
      (backlogLeader 300000).ring.ringSlots =
        defaultNumPages * slotsPerPage - 1 ∧
      ∃ call,
        (backlogLeader 300000).builtCall? 1 = some call ∧
          ∀ format copied,
            call.frame format copied = none ∧
              ¬ call.FitsMessage format copied := by
  have positive : 0 < 300000 := by decide
  obtain ⟨call, built⟩ := backlogLeader_built positive
  have longest := built_longest (backlogLeader_inRing positive) built
  refine ⟨rfl, rfl, rfl, rfl, call, built, fun format copied => ?_⟩
  have terms :
      ∀ offset < 300000,
        ((backlogLeader 300000).logAt
          ((backlogLeader 300000).nextOf 1 + offset)).toMeta.toProto.term ≠ 0 :=
    fun _ held => backlogLeader_term held
  have metas := le_metaBytes format terms
  have refused :=
    longest.refused format copied (backlogLeader_admits positive (by decide))
      (by rw [frameRoom_eq.1]; omega)
  refine ⟨refused, ?_⟩
  rintro ⟨frame, accepted, -⟩
  rw [refused] at accepted
  cases accepted

end NvmeofRaft
