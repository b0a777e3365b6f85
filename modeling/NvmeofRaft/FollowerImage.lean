import NvmeofRaft.Authenticity
import NvmeofRaft.PlacedRequests
import NvmeofRaft.Promotion

namespace NvmeofRaft

/-!
# The log of a follower

Every section of a node that does not lead keeps one deferred entry for each of
the first placed entries, as long as the requests it handles describe placed
entries and a handler that returns from its copy finds the tail unchanged.
-/

/-- What a deferred entry has from its metadata. -/
theorem placedEntries_meta
    (metas : List EntryMeta) :
    ∀ (slot position : Nat) (entry : Entry) (entryMeta : EntryMeta),
      (placedEntries slot metas)[position]? = some entry →
      metas[position]? = some entryMeta →
      entry.command = [] ∧ entry.term = entryMeta.term ∧
        entry.cmdLen = entryMeta.cmdLen := by
  induction metas with
  | nil =>
      intro slot position entry entryMeta found
      cases found
  | cons first rest inductionHypothesis =>
      intro slot position entry entryMeta found given
      cases position with
      | zero =>
          rw [placedEntries, List.getElem?_cons_zero,
            Option.some.injEq] at found
          rw [List.getElem?_cons_zero, Option.some.injEq] at given
          rw [← found, ← given]
          exact ⟨rfl, rfl, rfl⟩
      | succ position =>
          exact inductionHypothesis _ position entry entryMeta found given

namespace EntryView

variable {view : EntryView} {placed : List (Entry × Nat)}

theorem meet_ringSlots
    (view : EntryView)
    (term : Nat) :
    (view.meet term).ringSlots = view.ringSlots := by
  unfold EntryView.meet EntryView.stepDown EntryView.bump EntryView.demote
  split_ifs <;> rfl

/-- Placing more entries leaves those in the log where they are. -/
theorem Defers.append
    (defers : view.Defers placed)
    (added : List (Entry × Nat)) :
    view.Defers (placed ++ added) := by
  obtain ⟨length, started, upTo, deferred, applied, committed⟩ := defers
  refine ⟨length, started, ?_, ?_, applied, committed⟩
  · rw [List.length_append]
    omega
  · intro position entry start found inside
    rw [List.getElem?_append_left (by omega)] at found
    exact deferred position entry start found inside

theorem Defers.bump
    (defers : view.Defers placed)
    (term : Nat) :
    (view.bump term).Defers placed := by
  obtain ⟨length, started, upTo, deferred, applied, committed⟩ := defers
  unfold EntryView.bump
  split
  · exact ⟨length, started, upTo, deferred, applied, committed⟩
  · exact ⟨length, started, upTo, deferred, applied, committed⟩

/-- Meeting a term leaves the deferred entries as they are. -/
theorem Defers.meet
    (defers : view.Defers placed)
    (term : Nat) :
    (view.meet term).Defers placed := by
  obtain ⟨length, started, upTo, deferred, applied, committed⟩ :=
    defers.bump term
  unfold EntryView.meet EntryView.stepDown
  split
  · exact ⟨length, started, upTo, deferred, applied, committed⟩
  · exact ⟨length, started, upTo, deferred, applied, committed⟩

theorem Defers.followCommit
    (defers : view.Defers placed)
    (leaderCommit : Nat) :
    (view.followCommit leaderCommit).Defers placed := by
  obtain ⟨length, started, upTo, deferred, applied, committed⟩ := defers
  refine ⟨length, started, upTo, deferred, applied, ?_⟩
  unfold EntryView.followCommit
  dsimp only
  split
  · omega
  · exact committed

variable {req : AppendEntriesRequest} {leader skipEntries : Nat}
variable {layout : RingLayout}

/-- The log build adds the entries behind those that are skipped. -/
theorem Defers.buildLog
    (defers : view.Defers placed)
    (describes : req.DescribesPlaced leader layout placed)
    (larger : layout.ringSlots ≤ view.ringSlots)
    (tail : view.tail = req.prevLogIndex + 1 + skipEntries)
    (fresh : skipEntries < req.numEntries) :
    (view.buildLog req.startSlot req (req.prevLogIndex + 1)
      skipEntries).Defers placed := by
  obtain ⟨length, started, upTo, deferred, applied, committed⟩ := defers
  have counted := describes.counted
  have within := describes.within
  have new :
      deferredEntries view.ringSlots skipEntries 0 req.startSlot
          req.entryMetas =
        (placedEntries req.startSlot req.entryMetas).drop skipEntries :=
    deferredEntries_eq_drop skipEntries req.entryMetas 0
      (describes.fits.trans larger)
  unfold EntryView.buildLog
  rw [if_pos counted, new]
  have grown :
      ((placedEntries req.startSlot req.entryMetas).drop
        skipEntries).length = req.numEntries - skipEntries := by
    rw [List.length_drop, placedEntries_length, counted]
  refine ⟨?_, ?_, ?_, ?_, applied, ?_⟩
  · rw [List.length_append, grown]
    dsimp only
    omega
  · dsimp only
    omega
  · dsimp only
    omega
  · intro position entry start found inside
    dsimp only at inside ⊢
    by_cases old : position + 1 < view.tail
    · obtain ⟨held, inLog, defers⟩ :=
        deferred position entry start found old
      refine ⟨held, ?_, defers⟩
      rw [List.getElem?_append_left (by omega), inLog]
    · have offset :
          skipEntries + (position + 1 - view.log.length) =
            position - req.prevLogIndex := by
        omega
      have index :
          req.prevLogIndex + (position - req.prevLogIndex) = position := by
        omega
      obtain ⟨held, inBatch⟩ :
          ∃ held,
            (placedEntries req.startSlot
              req.entryMetas)[position - req.prevLogIndex]? = some held :=
        ⟨_, List.getElem?_eq_getElem (by
          rw [placedEntries_length, counted]
          omega)⟩
      obtain ⟨starts, -⟩ := describes.slots (position - req.prevLogIndex)
        entry start (by omega) (by rw [index]; exact found)
      obtain ⟨entryMeta, given, described⟩ :=
        describes.metas (position - req.prevLogIndex) entry start (by omega)
          (by rw [index]; exact found)
      obtain ⟨empty, term, cmdLen⟩ :=
        placedEntries_meta _ _ _ _ _ inBatch given
      refine ⟨held, ?_, ⟨empty, ?_, term.trans described.term, ?_⟩⟩
      · rw [List.getElem?_append_right (by omega), List.getElem?_drop, offset]
        exact inBatch
      · rw [placedEntries_ringSlot _ _ _ _ inBatch, starts]
      · rw [cmdLen]
        exact described.cmdLen
  · dsimp only
    omega

/-- The entries of a request that describes placed ones are deferred, too. -/
theorem Defers.complete
    {pending : PendingAppend}
    (defers : view.Defers placed)
    (describes : pending.req.DescribesPlaced leader layout placed)
    (larger : layout.ringSlots ≤ view.ringSlots)
    (newTail : pending.newTail = pending.req.prevLogIndex + 1)
    (tail : view.tail = pending.newTail + pending.skipEntries)
    (fresh : pending.skipEntries < pending.req.numEntries) :
    (view.complete pending.req.startSlot pending).Defers placed := by
  unfold EntryView.complete
  rw [newTail] at tail ⊢
  exact (defers.buildLog describes larger tail fresh).followCommit _

end EntryView

/-- What a handler that is about to finish relies on. -/
structure PendingAppend.Finishes
    (pending : PendingAppend)
    (server : Server)
    (leader : Nat)
    (layout : RingLayout)
    (placed : List (Entry × Nat)) : Prop where
  describes : pending.req.DescribesPlaced leader layout placed
  newTail : pending.newTail = pending.req.prevLogIndex + 1
  fresh : pending.skipEntries < pending.req.numEntries
  tail :
    server.ring.tailLogIndex = pending.newTail + pending.skipEntries
  tailSlot : server.ring.tailSlot = pending.req.startSlot

section

variable {proc : Process} {outcomes : IoOutcomes} {act : Act}
variable {result : Process × Outputs} {leader : Nat} {layout : RingLayout}
variable {placed : List (Entry × Nat)}

/-- A step of a node that neither leads nor wins keeps its log deferred. -/
theorem Process.step_defers
    (defers : proc.server.entryView.Defers placed)
    (stepped : proc.step outcomes act = some result)
    (noRestart : ∀ kernel cacheLost, act ≠ .restart kernel cacheLost)
    (noWin : proc.node.wins act = false)
    (other : proc.server.raft.state ≠ .leader)
    (larger : layout.ringSlots ≤ proc.server.ring.ringSlots)
    (handles :
      ∀ src req,
        act = .handleAppend src req → req.Sound leader layout placed)
    (finishes :
      ∀ index src pending,
        act = .handleAppendFinish index true →
        proc.threads[index]? = some (.appendHandler src pending) →
        pending.Finishes proc.server leader layout placed) :
    result.1.server.entryView.Defers placed := by
  have sentinel : 0 < proc.server.entryView.log.length := by
    rw [defers.length]
    exact defers.started
  have other' :
      (proc.server.withOutcomes outcomes).raft.state ≠ .leader :=
    other
  have does := Process.step_entries sentinel stepped noRestart
  generalize result.1.server.entryView = after at does
  cases does with
  | kept =>
      exact defers
  | bumped _ =>
      exact defers.bump _
  | @handled src req _ handled =>
      cases handled with
      | demoted _ =>
          exact defers.bump _
      | met =>
          exact defers.meet _
      | followed _ =>
          exact (defers.meet _).followCommit _
      | @completed pending _ reached sameReq newTail skip fresh =>
          have describes := handles src req rfl (Nat.zero_lt_of_lt fresh)
          subst sameReq
          have tail : proc.server.entryView.tail =
              pending.newTail + pending.skipEntries := by
            have started := defers.started
            have skip' : pending.skipEntries =
                proc.server.entryView.tail -
                  (pending.req.prevLogIndex + 1) :=
              skip
            have reached' : pending.req.prevLogIndex = 0 ∨
                pending.req.prevLogIndex < proc.server.entryView.tail :=
              reached
            omega
          refine (defers.meet _).complete describes ?_ newTail ?_ fresh
          · rw [EntryView.meet_ringSlots]
            exact larger
          · rw [EntryView.meet_tail]
            exact tail
  | @finished index src pending found =>
      obtain ⟨describes, newTail, fresh, tail, tailSlot⟩ :=
        finishes index src pending rfl found
      have slot :
          (proc.server.withOutcomes outcomes).ring.tailSlot =
            pending.req.startSlot :=
        tailSlot
      rw [slot]
      exact defers.complete describes larger newTail tail fresh
  | campaigned _ =>
      obtain ⟨length, started, upTo, deferred, applied, committed⟩ := defers
      exact ⟨length, started, upTo, deferred, applied, committed⟩
  | promoted pc won =>
      have won' : proc.server.quorumLeft = 0 := won
      rw [quorumLeft_eq] at won'
      have lost := Bool.and_eq_false_iff.mp noWin
      rcases lost with elsewhere | fewer
      · exact absurd pc (of_decide_eq_false elsewhere)
      · exact absurd won' (of_decide_eq_false fewer)
  | committed _ leads _ _ =>
      exact absurd leads other
  | appended leads =>
      exact absurd leads other
  | applied =>
      rw [Server.applyCommitted, if_neg other']
      exact defers
  | collected =>
      rw [Server.collectGarbage, if_neg other']
      exact defers

end

end NvmeofRaft
