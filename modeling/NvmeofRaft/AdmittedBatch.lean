import NvmeofRaft.BatchClamps

namespace NvmeofRaft

/-!
# The entries of a round

Lock B of `append_entries_worker` sends as many entries as the limits of the
round admit, for a member at any `next_index`.  A failed call leaves the leader
as Lock B has found it, so that the next round sends the same request.
-/

/-- The index from which the next round to a member goes on. -/
def Server.nextOf
    (server : Server)
    (fi : Nat) :
    Nat :=
  ((server.clampNext fi).member fi).nextIndex

/-- The limits of a round to a member admit this many entries. -/
def Server.Admits
    (server : Server)
    (fi count : Nat) : Prop :=
  ∃ startSlot,
    server.startSlotOf (server.nextOf fi) = some startSlot ∧
      server.Admissible (server.nextOf fi) startSlot count

/-- The request of a call has the metadata of as many entries as admitted. -/
structure AppendCall.Longest
    (call : AppendCall)
    (server : Server)
    (fi : Nat) : Prop where
  metas :
    call.req.entryMetas =
      (List.range call.lenEntries).map fun offset =>
        (server.logAt (server.nextOf fi + offset)).toMeta
  longest : ∀ count, server.Admits fi count → count ≤ call.lenEntries
  admitted : call.lenEntries = 0 ∨ server.Admits fi call.lenEntries

section

variable {server : Server} {next lenEntries : Nat}

/-- A round plans as many entries as its limits admit. -/
theorem planRound_admitted
    (inRing :
      ∀ startSlot, server.startSlotOf next = some startSlot →
        startSlot ≤ server.ring.ringSlots)
    (isBatch :
      lenEntries =
        min (server.lastLogIndex + 1 - next) server.maxAeBatch) :
    wp (planRound next lenEntries)
      (fun plan final =>
        final = server ∧
          (∀ startSlot count,
            server.startSlotOf next = some startSlot →
            server.Admissible next startSlot count →
            count ≤ plan.lenEntries) ∧
          (plan.lenEntries = 0 ∨
            ∃ startSlot,
              server.startSlotOf next = some startSlot ∧
                server.Admissible next startSlot plan.lenEntries))
      (fun _ _ =>
        ∃ startSlot,
          server.startSlotOf next = some startSlot ∧
            server.NoAddress startSlot) server := by
  rcases Nat.eq_zero_or_pos lenEntries with none | entries
  · simp only [planRound, wp_bind, wp_get, wp_pure, if_pos none]
    refine ⟨trivial, fun startSlot count _ admissible => ?_, Or.inl trivial⟩
    have inLog := admissible.inLog
    have inBatch := admissible.inBatch
    show count ≤ 0
    omega
  · cases started : server.startSlotOf next with
    | none =>
        simp only [planRound, wp_bind, wp_get, wp_pure,
          Nat.ne_of_gt entries, if_false, started]
        exact ⟨trivial, (by rintro _ _ ⟨⟩), Or.inl trivial⟩
    | some startSlot =>
        refine wp_mono (planRound_longest entries started
          (inRing startSlot started) (isBatch ▸ min_le_left _ _)) ?_
          fun _ _ nowhere => ⟨startSlot, rfl, nowhere⟩
        rintro plan final ⟨rfl, -, longest⟩
        refine ⟨rfl, ?_, Or.inr ⟨startSlot, rfl, ?_⟩⟩
        · rintro _ count ⟨⟩ ⟨inLog, inBatch, inBytes, inRing, inExtent⟩
          exact longest.2 ⟨⟨by omega, inBytes, inRing⟩, inExtent⟩
        · obtain ⟨⟨bounded, inBytes, inRing⟩, inExtent⟩ := longest.1
          exact ⟨by omega, by omega, inBytes, inRing, inExtent⟩

end

/-- Clamping bounds the next index of its member by the log. -/
theorem member_clampNext
    (server : Server)
    (fi : Nat) :
    ((server.clampNext fi).member fi).inflight =
        (server.member fi).inflight ∧
      server.nextOf fi =
        min (server.member fi).nextIndex (server.lastLogIndex + 1) := by
  simp only [Server.nextOf, Server.member, Server.clampNext, Server.mapMember,
    Server.mapRaft, List.getD_eq_getElem?_getD, List.getElem?_modify_eq]
  cases server.raft.cluster[fi]? with
  | none =>
      exact ⟨rfl, (Nat.zero_min _).symm⟩
  | some member =>
      exact ⟨rfl, rfl⟩

/-- The leader once Lock B has built a request. -/
def Server.afterSend
    (server : Server)
    (fi : Nat)
    (call : AppendCall) :
    Server :=
  if call.hasEntries then
    (server.clampNext fi).setInflight fi true
  else
    server.clampNext fi

section

variable {server : Server} {fi : Nat}

theorem admissible_clampNext
    {next startSlot count : Nat} :
    (server.clampNext fi).Admissible next startSlot count ↔
      server.Admissible next startSlot count := by
  constructor
  · rintro ⟨inLog, inBatch, inBytes, inRing, inExtent⟩
    rw [Server.KeepsByteCap, slotsOfRange_clampNext] at inBytes
    rw [slotsOfRange_clampNext] at inRing inExtent
    exact ⟨inLog, inBatch, inBytes, inRing, inExtent⟩
  · rintro ⟨inLog, inBatch, inBytes, inRing, inExtent⟩
    rw [Server.KeepsByteCap, ← slotsOfRange_clampNext server fi] at inBytes
    rw [← slotsOfRange_clampNext server fi] at inRing inExtent
    exact ⟨inLog, inBatch, inBytes, inRing, inExtent⟩

/-- What Lock B sends, unless an earlier batch is in flight. -/
theorem appendEntriesSend_longest
    (inRing :
      ∀ startSlot, server.startSlotOf (server.nextOf fi) = some startSlot →
        startSlot ≤ server.ring.ringSlots) :
    wp (appendEntriesSend fi)
      (fun built final =>
        built = none ∧ (server.member fi).inflight = true ∨
          ∃ call,
            built = some call ∧ call.Longest server fi ∧
              final = server.afterSend fi call ∧
              (call.hasEntries = true → (server.member fi).inflight = false))
      (fun _ _ =>
        ∃ startSlot,
          server.startSlotOf (server.nextOf fi) = some startSlot ∧
            server.NoAddress startSlot) server := by
  have samePlan :
      ∀ startSlot,
        (server.clampNext fi).startSlotOf (server.nextOf fi) =
            some startSlot →
          startSlot ≤ (server.clampNext fi).ring.ringSlots :=
    inRing
  have sameLast :
      (server.clampNext fi).lastLogIndex = server.lastLogIndex :=
    rfl
  simp only [appendEntriesSend, wp_bind, wp_modify, wp_get, wp_ite, wp_pure]
  split
  · rename_i waits
    refine Or.inl ⟨trivial, ?_⟩
    rw [← (member_clampNext server fi).1]
    exact waits.2
  · rename_i free
    refine wp_mono (planRound_admitted samePlan ?_) ?_
      fun _ _ nowhere => nowhere
    · split
      · rfl
      · rename_i behind
        show 0 = min (server.lastLogIndex + 1 - server.nextOf fi) _
        have notInLog : ¬ server.nextOf fi ≤ server.lastLogIndex := behind
        omega
    · rintro plan final ⟨rfl, longest, admitted⟩
      have call : AppendCall.Longest {
          req := (server.clampNext fi).fillRequest (server.nextOf fi) plan
          next := server.nextOf fi
          lenEntries := plan.lenEntries } server fi := by
        refine ⟨rfl, ?_, ?_⟩
        · rintro count ⟨startSlot, started, admissible⟩
          exact longest startSlot count started
            (admissible_clampNext.mpr admissible)
        · refine admitted.imp_right ?_
          rintro ⟨startSlot, started, admissible⟩
          exact ⟨startSlot, started, admissible_clampNext.mp admissible⟩
      split
      · rename_i entries
        refine Or.inr ⟨_, rfl, call, ?_, fun _ => ?_⟩
        · exact (if_pos (decide_eq_true entries)).symm
        · -- With entries to send, the in-flight check has been passed.
          rcases admitted with none | ⟨startSlot, -, admissible⟩
          · omega
          · have inLog := admissible.inLog
            rw [sameLast] at inLog
            rw [← (member_clampNext server fi).1, ← Bool.not_eq_true]
            exact fun inflight => free ⟨by
              show server.nextOf fi ≤ server.lastLogIndex
              change server.nextOf fi + _ ≤ _ at inLog
              omega, inflight⟩
      · rename_i noEntries
        refine Or.inr ⟨_, rfl, call, ?_, fun entries => ?_⟩
        · exact (if_neg (by simpa [AppendCall.hasEntries] using noEntries)).symm
        · exact absurd (of_decide_eq_true entries) noEntries

/-- The batch that is built is the longest admissible one. -/
theorem built_longest
    {call : AppendCall}
    (inRing :
      ∀ startSlot, server.startSlotOf (server.nextOf fi) = some startSlot →
        startSlot ≤ server.ring.ringSlots)
    (built : server.builtCall? fi = some call) :
    call.Longest server fi := by
  have spec :
      wp (appendEntriesSend fi)
        (fun built _ =>
          ∀ call, built = some call → call.Longest server fi)
        (fun _ _ => True) server := by
    refine wp_mono (appendEntriesSend_longest inRing) ?_ fun _ _ _ => trivial
    rintro _ _ (⟨rfl, -⟩ | ⟨sent, rfl, longest, -⟩) call ⟨⟩
    exact longest
  exact wp_builtCall spec built

end

/-- One round to a member whose call fails. -/
def Server.failedRound
    (fi : Nat)
    (server : Server) :
    Server :=
  match (appendEntriesSend fi).run server with
  | .ok (some call) sent => sent.bookAnswer fi call none
  | .ok none sent => sent
  | .error _ sent => sent

theorem mapMember_mapMember
    (server : Server)
    (fi : Nat)
    (first second : ClusterMember → ClusterMember) :
    (server.mapMember fi first).mapMember fi second =
      server.mapMember fi (second ∘ first) := by
  simp only [Server.mapMember, Server.mapRaft, List.modify_modify_eq]

/-- Clamping once is enough. -/
theorem clampNext_clampNext
    (server : Server)
    (fi : Nat) :
    (server.clampNext fi).clampNext fi = server.clampNext fi := by
  refine (mapMember_mapMember server fi _ _).trans ?_
  refine congrArg (server.mapMember fi) (funext fun member => ?_)
  show ({ member with
      nextIndex :=
        min (min member.nextIndex (server.lastLogIndex + 1))
          (server.lastLogIndex + 1) } : ClusterMember) = _
  rw [min_assoc, min_self]

/-- Setting and clearing the flag leaves the server as it was. -/
theorem setInflight_cleared
    {server : Server}
    {fi : Nat}
    (free : (server.member fi).inflight = false) :
    (server.setInflight fi true).setInflight fi false = server := by
  refine (mapMember_mapMember server fi _ _).trans ?_
  rw [Server.mapMember, Server.mapRaft, modify_of_unchanged]
  intro member found
  rw [Server.member, List.getD_eq_getElem?_getD, found] at free
  show ({ member with inflight := false } : ClusterMember) = member
  rw [show false = member.inflight from free.symm]

/-- After a failed call the leader is as Lock B has found it. -/
theorem bookAnswer_afterSend
    {server : Server}
    {fi : Nat}
    {call : AppendCall}
    (free : call.hasEntries = true → (server.member fi).inflight = false) :
    (server.afterSend fi call).bookAnswer fi call none =
      server.clampNext fi := by
  unfold Server.afterSend Server.bookAnswer
  dsimp only
  split
  · rename_i entries
    rw [← (member_clampNext server fi).1] at free
    exact setInflight_cleared (free entries)
  · rfl

/-- A round whose call fails leaves the server as the clamp has left it. -/
theorem failedRound_eq
    {server : Server}
    {fi : Nat}
    {call : AppendCall}
    (inRing :
      ∀ startSlot, server.startSlotOf (server.nextOf fi) = some startSlot →
        startSlot ≤ server.ring.ringSlots)
    (built : server.builtCall? fi = some call) :
    server.failedRound fi = server.clampNext fi := by
  have spec := appendEntriesSend_longest inRing
  unfold wp at spec
  unfold Server.builtCall? at built
  unfold Server.failedRound
  cases ended : (appendEntriesSend fi).run server with
  | ok sent final =>
      rw [ended] at spec built
      obtain rfl : sent = some call := built
      rcases spec with ⟨⟨⟩, -⟩ | ⟨_, ⟨⟩, -, rfl, free⟩
      exact bookAnswer_afterSend free
  | error exn final =>
      rw [ended] at built
      cases built

theorem builtCall_clampNext
    (server : Server)
    (fi : Nat) :
    (server.clampNext fi).builtCall? fi = server.builtCall? fi := by
  have clamps :
      ∀ server : Server,
        EStateM.run (modify fun server => server.clampNext fi : Section PUnit)
            server =
          .ok ⟨⟩ (server.clampNext fi) :=
    fun _ => rfl
  simp only [Server.builtCall?, appendEntriesSend, EStateM.run_bind, clamps,
    clampNext_clampNext]

/--
As long as its calls fail and nothing else happens, a worker builds the same
request in every round.
-/
theorem failedRounds_rebuild
    {server : Server}
    {fi : Nat}
    {call : AppendCall}
    (inRing :
      ∀ startSlot, server.startSlotOf (server.nextOf fi) = some startSlot →
        startSlot ≤ server.ring.ringSlots)
    (built : server.builtCall? fi = some call)
    (rounds : Nat) :
    ((Server.failedRound fi)^[rounds] server).builtCall? fi = some call := by
  induction rounds generalizing server with
  | zero =>
      exact built
  | succ rounds inductionHypothesis =>
      rw [Function.iterate_succ_apply, failedRound_eq inRing built]
      refine inductionHypothesis ?_ ?_
      · rw [Server.nextOf, clampNext_clampNext]
        exact inRing
      · rw [builtCall_clampNext]
        exact built

end NvmeofRaft
