import NvmeofRaft.AppendAnswer
import NvmeofRaft.SlotChain

namespace NvmeofRaft

/-!
# The slots of a follower's entries

The log build of `handle_append_entries_request` takes the slots of a batch
from the metadata of the request: it starts at `start_slot` and passes on by
the slots of every entry, of those it skips as well.
-/

/-- The slots that a batch takes according to its metadata. -/
def slotsOfMetas (metas : List EntryMeta) : Nat :=
  (metas.map fun entryMeta => slotsForEntry entryMeta.cmdLen).sum

/-- The deferred entries of a batch, one behind the other from a slot on. -/
def placedEntries :
    Nat → List EntryMeta → List Entry
  | _, [] =>
      []
  | slot, entryMeta :: rest =>
      { term := entryMeta.term
        ringSlot := slot
        cmdLen := entryMeta.cmdLen } ::
          placedEntries (slot + slotsForEntry entryMeta.cmdLen) rest

theorem slotsOfMetas_cons
    (entryMeta : EntryMeta)
    (rest : List EntryMeta) :
    slotsOfMetas (entryMeta :: rest) =
      slotsForEntry entryMeta.cmdLen + slotsOfMetas rest := by
  rw [slotsOfMetas, List.map_cons, List.sum_cons]
  rfl

/-- A batch with entries takes slots. -/
theorem slotsOfMetas_pos
    {metas : List EntryMeta}
    (some : metas ≠ []) :
    0 < slotsOfMetas metas := by
  cases metas with
  | nil =>
      exact absurd rfl some
  | cons entryMeta rest =>
      rw [slotsOfMetas_cons]
      exact Nat.add_pos_left (slotsForEntry_pos _) _

/-- A longer front of a batch takes the slots of its last entry as well. -/
theorem slotsOfMetas_take_succ
    {metas : List EntryMeta}
    {position : Nat}
    {entryMeta : EntryMeta}
    (found : metas[position]? = some entryMeta) :
    slotsOfMetas (metas.take (position + 1)) =
      slotsOfMetas (metas.take position) +
        slotsForEntry entryMeta.cmdLen := by
  rw [List.take_add_one, found, slotsOfMetas, List.map_append,
    List.sum_append]
  rfl

/-- Each of the metas becomes one entry. -/
theorem placedEntries_length
    (metas : List EntryMeta) :
    ∀ slot, (placedEntries slot metas).length = metas.length := by
  induction metas with
  | nil =>
      intro slot
      rfl
  | cons entryMeta rest inductionHypothesis =>
      intro slot
      rw [placedEntries, List.length_cons, inductionHypothesis,
        List.length_cons]

/-- An entry lies behind the slots of those in front of it. -/
theorem placedEntries_ringSlot
    (metas : List EntryMeta) :
    ∀ slot position entry,
      (placedEntries slot metas)[position]? = some entry →
      entry.ringSlot = slot + slotsOfMetas (metas.take position) := by
  induction metas with
  | nil =>
      intro slot position entry found
      cases found
  | cons entryMeta rest inductionHypothesis =>
      intro slot position entry found
      cases position with
      | zero =>
          rw [placedEntries, List.getElem?_cons_zero,
            Option.some.injEq] at found
          rw [← found]
          rfl
      | succ position =>
          rw [placedEntries, List.getElem?_cons_succ] at found
          rw [inductionHypothesis _ _ _ found, List.take_succ_cons,
            slotsOfMetas_cons, Nat.add_assoc]

section

variable {ringSlots slot : Nat} {entryMeta : EntryMeta}
variable {rest : List EntryMeta}

/-- A batch that fits in front of the ring end does not wrap inside. -/
theorem passed_of_fits
    (inRing : slot + slotsOfMetas (entryMeta :: rest) ≤ ringSlots)
    (more : rest ≠ []) :
    (if ringSlots ≤ slot + slotsForEntry entryMeta.cmdLen then 0
      else slot + slotsForEntry entryMeta.cmdLen) =
        slot + slotsForEntry entryMeta.cmdLen := by
  have slots := slotsOfMetas_pos more
  rw [slotsOfMetas_cons] at inRing
  exact if_neg (by omega)

end

/-- The deferred entries are those of the batch without the skipped ones. -/
theorem deferredEntries_eq_drop
    {ringSlots : Nat}
    (skipEntries : Nat)
    (metas : List EntryMeta) :
    ∀ index {slot},
      slot + slotsOfMetas metas ≤ ringSlots →
      deferredEntries ringSlots skipEntries index slot metas =
        (placedEntries slot metas).drop (skipEntries - index) := by
  induction metas with
  | nil =>
      intro index slot inRing
      rw [placedEntries, List.drop_nil]
      rfl
  | cons entryMeta rest inductionHypothesis =>
      intro index slot inRing
      have later :
          deferredEntries ringSlots skipEntries (index + 1)
              (if ringSlots ≤ slot + slotsForEntry entryMeta.cmdLen then 0
                else slot + slotsForEntry entryMeta.cmdLen) rest =
            (placedEntries (slot + slotsForEntry entryMeta.cmdLen)
              rest).drop (skipEntries - (index + 1)) := by
        by_cases last : rest = []
        · rw [last, placedEntries, List.drop_nil]
          rfl
        · rw [passed_of_fits inRing last]
          rw [slotsOfMetas_cons, ← Nat.add_assoc] at inRing
          exact inductionHypothesis _ inRing
      rw [deferredEntries, later, placedEntries]
      by_cases kept : skipEntries ≤ index
      · rw [if_pos kept, Nat.sub_eq_zero_of_le kept,
          Nat.sub_eq_zero_of_le (Nat.le_succ_of_le kept)]
        rfl
      · rw [if_neg kept]
        have passes : skipEntries - index = skipEntries - (index + 1) + 1 := by
          omega
        rw [passes, List.drop_succ_cons]

/-- The build ends behind the last entry of the batch. -/
theorem appendMetas_tailSlot
    (skipEntries : Nat)
    (metas : List EntryMeta) :
    ∀ index {server : Server},
      metas ≠ [] →
      server.ring.tailSlot + slotsOfMetas metas ≤ server.ring.ringSlots →
      (appendMetas skipEntries index metas server).ring.tailSlot =
        if server.ring.tailSlot + slotsOfMetas metas =
            server.ring.ringSlots then 0
        else server.ring.tailSlot + slotsOfMetas metas := by
  induction metas with
  | nil =>
      intro index server some
      exact absurd rfl some
  | cons entryMeta rest inductionHypothesis =>
      intro index server _ inRing
      have passed :
          (appendMeta skipEntries index entryMeta server).ring =
            server.ring.passSlots (slotsForEntry entryMeta.cmdLen) := by
        unfold appendMeta
        dsimp only
        split
        · rfl
        · rfl
      have slot :
          (appendMeta skipEntries index entryMeta server).ring.tailSlot =
            if server.ring.ringSlots ≤
                server.ring.tailSlot + slotsForEntry entryMeta.cmdLen then 0
            else server.ring.tailSlot + slotsForEntry entryMeta.cmdLen := by
        rw [passed]
        rfl
      have ringSlots :
          (appendMeta skipEntries index entryMeta server).ring.ringSlots =
            server.ring.ringSlots := by
        rw [passed]
        rfl
      rw [appendMetas]
      by_cases last : rest = []
      · rw [slotsOfMetas_cons, last] at inRing ⊢
        have none : slotsOfMetas [] = 0 := rfl
        rw [none, Nat.add_zero] at inRing ⊢
        rw [appendMetas, slot]
        exact if_congr (by omega) rfl rfl
      · rw [passed_of_fits inRing last] at slot
        rw [slotsOfMetas_cons, ← Nat.add_assoc] at inRing ⊢
        rw [← slot, ← ringSlots] at inRing ⊢
        exact inductionHypothesis _ last inRing

/-- What a batch of which something is new leaves at a follower. -/
structure Server.Follows
    (before : Server)
    (req : AppendEntriesRequest)
    (after : Server) : Prop where
  tailSlot :
    after.ring.tailSlot =
      if req.startSlot + slotsOfMetas req.entryMetas =
          before.ring.ringSlots then 0
      else req.startSlot + slotsOfMetas req.entryMetas
  tail :
    after.ring.tailLogIndex = req.prevLogIndex + 1 + req.numEntries
  log :
    after.raft.log =
      before.raft.log ++
        (placedEntries req.startSlot req.entryMetas).drop
          (before.ring.tailLogIndex - (req.prevLogIndex + 1))

/-- The batch ends behind the log and in front of the end of the ring. -/
structure Server.Needs
    (server : Server)
    (req : AppendEntriesRequest) : Prop where
  built : req.Built
  some : 0 < req.numEntries
  fresh : server.ring.tailLogIndex < req.prevLogIndex + 1 + req.numEntries
  inRing :
    req.startSlot + slotsOfMetas req.entryMetas ≤ server.ring.ringSlots

/-- The end of the handler leaves the log and the slots alone. -/
theorem finishAppend_follows
    {before server : Server}
    {req : AppendEntriesRequest}
    (follows : before.Follows req server)
    (rspTerm : Nat) :
    wp (finishAppend req rspTerm)
      (fun rsp final => rsp.success = true ∧ before.Follows req final)
      (fun _ _ => True) server := by
  simp only [finishAppend, wp_bind, wp_modify, wp_pure]
  refine wp_mono (wp_and
    ((persistCircular_entryView false 0).ends _)
    (persistHeaderOnly_ringView.ends _)) ?_ fun _ _ _ => trivial
  rintro _ final ⟨entries, ring⟩
  have tail : final.ring.tailLogIndex = server.ring.tailLogIndex :=
    congrArg EntryView.tail entries
  have log : final.raft.log = server.raft.log :=
    congrArg EntryView.log entries
  have slot : final.ring.tailSlot = server.ring.tailSlot :=
    congrArg RingView.tailSlot ring
  exact ⟨trivial, slot.trans follows.tailSlot, tail.trans follows.tail,
    log.trans follows.log⟩

/-- The log build places the batch from `start_slot` on. -/
theorem buildLog_follows
    {before server : Server}
    {req : AppendEntriesRequest}
    (needs : before.Needs req)
    (log : server.raft.log = before.raft.log)
    (ringSlots : server.ring.ringSlots = before.ring.ringSlots)
    (slot : server.ring.tailSlot = req.startSlot) :
    before.Follows req
      (server.buildLog req (req.prevLogIndex + 1)
        (before.ring.tailLogIndex - (req.prevLogIndex + 1))) := by
  have some : req.entryMetas ≠ [] := by
    intro none
    have counted := needs.built.metas
    rw [none, List.length_nil] at counted
    exact absurd counted (Nat.ne_of_lt needs.some)
  have inRing :
      server.ring.tailSlot + slotsOfMetas req.entryMetas ≤
        server.ring.ringSlots := by
    rw [slot, ringSlots]
    exact needs.inRing
  have entries := buildLog_entryView server req (req.prevLogIndex + 1)
    (before.ring.tailLogIndex - (req.prevLogIndex + 1))
  rw [EntryView.buildLog, if_pos needs.built.metas] at entries
  refine ⟨?_, congrArg EntryView.tail entries, ?_⟩
  · have ends := appendMetas_tailSlot
      (before.ring.tailLogIndex - (req.prevLogIndex + 1)) req.entryMetas 0
      some inRing
    rw [slot, ringSlots] at ends
    rw [Server.buildLog, if_pos needs.built.metas]
    exact ends
  · have placed := deferredEntries_eq_drop
      (before.ring.tailLogIndex - (req.prevLogIndex + 1)) req.entryMetas 0
      inRing
    rw [Nat.sub_zero] at placed
    have built : (server.buildLog req _ _).raft.log = _ :=
      congrArg EntryView.log entries
    rw [built, ← slot, ← placed]
    exact congrArg (· ++ _) log

section

variable {before server : Server} {req : AppendEntriesRequest}

/-- The handler behind its checks, with a copy that succeeds. -/
theorem completeAppend_follows
    (needs : before.Needs req)
    (log : server.raft.log = before.raft.log)
    (ringSlots : server.ring.ringSlots = before.ring.ringSlots)
    (slot : server.ring.tailSlot = req.startSlot)
    (rspTerm : Nat) :
    wp
      (completeAppend {
        req
        rspTerm
        newTail := req.prevLogIndex + 1
        skipEntries := before.ring.tailLogIndex - (req.prevLogIndex + 1) })
      (fun rsp final => rsp.success = true ∧ before.Follows req final)
      (fun _ _ => True) server := by
  rw [completeAppend, wp_bind, wp_modify]
  exact finishAppend_follows (buildLog_follows needs log ringSlots slot)
    rspTerm

/-- How the first section of the handler leaves a batch for the second one. -/
def AppendProgress.Places
    (progress : AppendProgress)
    (before : Server)
    (req : AppendEntriesRequest)
    (server : Server) : Prop :=
  match progress with
  | .replied rsp =>
      rsp.success = true ∧ before.Follows req server
  | .copying pending =>
      wp (completeAppend pending)
        (fun rsp final => rsp.success = true ∧ before.Follows req final)
        (fun _ _ => True) server

/-- An accepted append places its entries at the tail slot. -/
theorem acceptAppend_places
    (needs : before.Needs req)
    (log : server.raft.log = before.raft.log)
    (ringSlots : server.ring.ringSlots = before.ring.ringSlots)
    (tail : server.ring.tailLogIndex = before.ring.tailLogIndex) :
    wp (acceptAppend req)
      (fun progress final => progress.Places before req final)
      (fun _ _ => True) server := by
  have fresh := needs.fresh
  have known :
      ¬ (req.prevLogIndex + 1 < server.ring.tailLogIndex ∧
        req.numEntries ≤
          server.ring.tailLogIndex - (req.prevLogIndex + 1)) := by
    rw [tail]
    omega
  have completes :
      ∀ rspTerm (final : Server),
        final.raft.log = before.raft.log →
        final.ring.ringSlots = before.ring.ringSlots →
        final.ring.tailSlot = req.startSlot →
        wp
          (completeAppend {
            req
            rspTerm
            newTail := req.prevLogIndex + 1
            skipEntries :=
              server.ring.tailLogIndex - (req.prevLogIndex + 1) })
          (fun rsp final => rsp.success = true ∧ before.Follows req final)
          (fun _ _ => True) final := by
    intro rspTerm final log ringSlots slot
    rw [tail]
    exact completeAppend_follows needs log ringSlots slot rspTerm
  simp only [acceptAppend, wp_bind, wp_get, wp_ite, wp_pure, modifyRing,
    wp_modify]
  rw [if_neg known, if_pos ⟨needs.some, needs.built.source needs.some⟩]
  split
  · exact completes _ _ log ringSlots rfl
  · exact completes _ _ log ringSlots rfl

/-- The term and role with which the handler goes on leave the log alone. -/
theorem EntryView.meet_sameLog
    (view : EntryView)
    (term : Nat) :
    (view.meet term).log = view.log ∧
      (view.meet term).tail = view.tail ∧
        (view.meet term).ringSlots = view.ringSlots := by
  unfold EntryView.meet EntryView.stepDown EntryView.bump
  split_ifs
  all_goals exact ⟨rfl, rfl, rfl⟩

/-- The handler of an acceptable batch of which something is new. -/
theorem handleAppendAlone_follows
    (accepts : before.accepts req = true)
    (needs : before.Needs req) :
    wp (handleAppendAlone true req)
      (fun rsp final => rsp.success = true ∧ before.Follows req final)
      (fun _ _ => True) before := by
  have accepted := (accepts_iff before req).mp accepts
  simp only [handleAppendAlone, handleAppendEntriesRequest, wp_bind,
    wp_discard]
  refine wp_mono (wp_and (updateTerm_spec req.term before)
    (updateTerm_entries req.term before)) ?_ fun _ _ _ => trivial
  rintro _ middle ⟨⟨-, bumps⟩, -, entries⟩
  have met : (middle.stepDown req).view = before.view.meet req.term := by
    rw [stepDown_view, bumps]
    rfl
  have passes :
      ¬ ((middle.stepDown req).raft.state ≠ .follower ∨
        req.term < (middle.stepDown req).raft.currentTerm) := by
    have role : (middle.stepDown req).raft.state = .follower :=
      (congrArg View.role met).trans accepted.follower
    have term : req.term = (middle.stepDown req).raft.currentTerm :=
      accepted.sameTerm.trans (congrArg View.term met).symm
    rintro (other | stale)
    · exact other role
    · exact absurd term (Nat.ne_of_lt stale)
  have agreed : prevLogConflict (middle.stepDown req) req = none := by
    rw [← Option.isNone_iff_eq_none, prevLogConflict_isNone, met]
    exact accepted.prevOk
  have sameEntries :
      (middle.stepDown req).entryView = before.entryView.meet req.term := by
    rw [stepDown_entryView, entries]
    rfl
  obtain ⟨log, tail, ringSlots⟩ :=
    EntryView.meet_sameLog before.entryView req.term
  rw [← sameEntries] at log tail ringSlots
  simp only [wp_modify, wp_get, wp_ite]
  rw [if_neg passes, agreed]
  refine wp_mono (acceptAppend_places needs log ringSlots tail) ?_
    fun _ _ _ => trivial
  intro progress final placed
  cases progress with
  | replied rsp =>
      exact placed
  | copying pending =>
      exact placed

end

end NvmeofRaft
