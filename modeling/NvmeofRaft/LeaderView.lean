import NvmeofRaft.SectionView

namespace NvmeofRaft

/-!
# Effects of the leader's sections on the view

Building and booking append requests, advancing the commit index, appending
client commands, applying entries and collecting garbage.
-/

/-- The records of the slot map are not empty. -/
def Server.SlotsPositive (server : Server) : Prop :=
  ∀ logIdx record,
    server.ring.logSlotMap.lookup logIdx = some record → 0 < record.numSlots

/-- Every entry of the log takes at least one slot. -/
theorem slotsForLogIndex_pos
    {server : Server}
    (positive : server.SlotsPositive)
    (logIdx : Nat) :
    0 < server.slotsForLogIndex logIdx := by
  unfold Server.slotsForLogIndex
  split
  · rename_i record found
    exact positive logIdx record found
  · unfold entrySlots
    split <;> exact slotsForEntry_pos _

/-- A clamp loop takes at most its bound, and slots for what it takes. -/
theorem takeEntries_spec
    {server : Server}
    (positive : server.SlotsPositive)
    (fits : Nat → Nat → Nat → Bool) :
    ∀ bound logIdx accepted total,
      (takeEntries server fits bound logIdx accepted total).1 ≤
          accepted + bound ∧
        (accepted ≤ total →
          (takeEntries server fits bound logIdx accepted total).1 ≤
            (takeEntries server fits bound logIdx accepted total).2) := by
  intro bound
  induction bound with
  | zero =>
      intro logIdx accepted total
      exact ⟨le_refl _, fun covered => covered⟩
  | succ bound inductionHypothesis =>
      intro logIdx accepted total
      unfold takeEntries
      have slots := slotsForLogIndex_pos positive logIdx
      dsimp only
      split
      · obtain ⟨upper, covers⟩ :=
          inductionHypothesis (logIdx + 1) (accepted + 1)
            (total + server.slotsForLogIndex logIdx)
        exact ⟨by omega, fun covered => covers (by omega)⟩
      · exact ⟨by simp, fun covered => covered⟩

/-- The rounds of the batch loop stay within the log. -/
theorem roundEntries_spec
    {server : Server}
    (positive : server.SlotsPositive)
    {next lenEntries : Nat}
    (startSlot : Nat)
    (fitting : lenEntries ≤ server.lastLogIndex + 1 - next) :
    (server.roundEntries next lenEntries startSlot).1 ≤
        server.lastLogIndex + 1 - next ∧
      (server.roundEntries next lenEntries startSlot).1 ≤
        (server.roundEntries next lenEntries startSlot).2 := by
  unfold Server.roundEntries
  dsimp only
  split
  · obtain ⟨upper, covers⟩ := takeEntries_spec positive
      (fun accepted total needed =>
        decide (total + needed ≤ server.ring.ringSlots - startSlot) &&
          server.underByteCap accepted total needed)
      (server.lastLogIndex + 1 - next) next 0 0
    exact ⟨by omega, covers (le_refl 0)⟩
  · obtain ⟨upper, covers⟩ := takeEntries_spec positive server.underByteCap
      lenEntries next 0 0
    exact ⟨by omega, covers (le_refl 0)⟩

theorem clampToExtent_le
    {server : Server}
    (positive : server.SlotsPositive)
    {next : Nat}
    {round : Nat × Nat}
    (actualSlots : Nat)
    (fitting : round.1 ≤ server.lastLogIndex + 1 - next) :
    (server.clampToExtent next round actualSlots).1 ≤
      server.lastLogIndex + 1 - next := by
  unfold Server.clampToExtent
  split
  · have upper := (takeEntries_spec positive
      (fun _ total needed => decide (total + needed ≤ actualSlots))
      (server.lastLogIndex + 1 - next) next 0 0).1
    omega
  · exact fitting

theorem getPba_spec
    (logical length : Nat)
    (server : Server) :
    wp (getPba logical length)
      (fun _ final => final = server)
      (fun _ final => final = server) server := by
  simp only [getPba, wp_bind, wp_get]
  split
  · exact rfl
  · exact rfl

/-- The range is resolved without a change. -/
theorem leaderPbaForRange_spec
    (startSlot totalSlots : Nat)
    (server : Server) :
    wp (leaderPbaForRange startSlot totalSlots)
      (fun found final =>
        final = server ∧ (0 < totalSlots → found.1 ≠ 0))
      (fun _ final => final = server) server := by
  simp only [leaderPbaForRange, wp_bind, wp_ite, wp_pure, wp_throw]
  split
  · exact ⟨trivial, by omega⟩
  · refine wp_mono (getPba_spec _ _ server) ?_ ?_
    · rintro segment final rfl
      split
      · rfl
      · rename_i located
        split <;> exact ⟨rfl, fun _ => located⟩
    · exact fun _ final same => same

/-- What the plan of a round guarantees. -/
structure RoundPlan.Sound
    (plan : RoundPlan)
    (server : Server)
    (next : Nat) : Prop where
  inLog :
    0 < plan.lenEntries →
      next ≤ server.lastLogIndex ∧
        next + plan.lenEntries ≤ server.lastLogIndex + 1
  mapped : 0 < plan.lenEntries → next ∈ server.ring.logSlotMap
  located : 0 < plan.lenEntries → plan.leaderPbaSrc ≠ 0

theorem RoundPlan.sound_of_lenEntries_eq_zero
    {plan : RoundPlan}
    {server : Server}
    {next : Nat}
    (empty : plan.lenEntries = 0) :
    plan.Sound server next where
  inLog := by omega
  mapped := by omega
  located := by omega

/-- A planned batch lies in the log. -/
theorem planRound_spec
    {server : Server}
    (positive : server.SlotsPositive)
    {next lenEntries : Nat}
    (fitting : lenEntries ≤ server.lastLogIndex + 1 - next) :
    wp (planRound next lenEntries)
      (fun plan final => final = server ∧ plan.Sound server next)
      (fun _ final => final = server) server := by
  simp only [planRound, wp_bind, wp_get, wp_ite, wp_pure]
  split
  · exact ⟨trivial, RoundPlan.sound_of_lenEntries_eq_zero rfl⟩
  · cases found : server.startSlotOf next with
    | none =>
        exact ⟨rfl, RoundPlan.sound_of_lenEntries_eq_zero rfl⟩
    | some startSlot =>
        have mapped : next ∈ server.ring.logSlotMap := by
          unfold Server.startSlotOf at found
          split at found
          · cases found
          · obtain ⟨record, held, -⟩ := Option.map_eq_some_iff.mp found
            exact AList.lookup_isSome.mp (Option.isSome_of_eq_some held)
        obtain ⟨upper, covers⟩ :=
          roundEntries_spec positive startSlot fitting
        simp only [wp_bind, wp_ite, wp_pure]
        split
        · exact ⟨trivial, RoundPlan.sound_of_lenEntries_eq_zero rfl⟩
        · rename_i some
          refine wp_mono (leaderPbaForRange_spec _ _ server) ?_ ?_
          · rintro segment final ⟨rfl, located⟩
            have clamped :=
              clampToExtent_le positive (segment.2 / sectorSize) upper
            exact ⟨rfl, {
              inLog := by dsimp only; omega
              mapped := fun _ => mapped
              located := fun _ => located (by omega) }⟩
          · exact fun _ final same => same

/-- The view after Lock B has pulled back the next index of a member. -/
def View.clampNext
    (view : View)
    (fi : Nat) :
    View :=
  { view with
    nexts := view.nexts.modify fi fun next => min next (view.tail - 1 + 1) }

/-- What the request of a call says about the view it was built in. -/
structure View.Built
    (view : View)
    (fi : Nat)
    (call : AppendCall) : Prop where
  sameTerm : call.req.term = view.term
  fromNext : call.next = view.nexts.getD fi 0
  prevLogIndex : call.req.prevLogIndex = call.next - 1
  prevLogTerm :
    call.req.prevLogTerm =
      if 0 < call.next ∧ view.oldest ≤ call.next - 1 ∧
          call.next - 1 < view.tail then
        view.termAt (call.next - 1)
      else
        0
  leaderCommit : call.req.leaderCommit = view.commit
  numEntries : call.req.numEntries = call.lenEntries
  metas :
    call.req.entryMetas.map EntryMeta.term =
      (List.range call.lenEntries).map fun offset =>
        view.termAt (call.next + offset)
  inLog :
    0 < call.lenEntries →
      call.next ≤ view.tail - 1 ∧
        call.next + call.lenEntries ≤ view.tail - 1 + 1
  located : 0 < call.lenEntries → call.req.leaderPbaSrc ≠ 0

section

variable (server : Server)

theorem clampNext_view
    (fi : Nat) :
    (server.clampNext fi).view = server.view.clampNext fi := by
  simp only [Server.clampNext, Server.mapMember, Server.mapRaft,
    Server.view, View.clampNext, View.mk.injEq, true_and, and_true]
  refine ⟨?_, map_modify _ _ _ fun _ => rfl, ?_⟩
  · exact map_modify_same _ _ fun _ => rfl
  · exact map_modify_same _ _ fun _ => rfl

theorem setInflight_view
    (fi : Nat)
    (inflight : Bool) :
    (server.setInflight fi inflight).view = server.view := by
  simp only [Server.setInflight, Server.mapMember, Server.mapRaft,
    Server.view, View.mk.injEq, true_and, and_true]
  refine ⟨?_, ?_, ?_⟩ <;> exact map_modify_same _ _ fun _ => rfl

theorem member_nextIndex
    (fi : Nat) :
    (server.member fi).nextIndex = server.view.nexts.getD fi 0 := by
  simp only [Server.member, Server.view, List.getD_eq_getElem?_getD,
    List.getElem?_map]
  cases server.raft.cluster[fi]? <;> rfl

/-- The filled request is built from the log. -/
theorem fillRequest_built
    (fi : Nat)
    {next : Nat}
    (fromNext : next = (server.member fi).nextIndex)
    {plan : RoundPlan}
    (sound : plan.Sound server next) :
    server.view.Built fi
      { req := server.fillRequest next plan
        next
        lenEntries := plan.lenEntries } where
  sameTerm := rfl
  fromNext := by rw [← member_nextIndex]; exact fromNext
  prevLogIndex := rfl
  prevLogTerm := by
    simp only [Server.fillRequest, Server.prevLogTerm, logAt_term,
      oldestLogIndex_eq]
    split
    · rename_i someNext
      simp only [someNext, true_and]
      rfl
    · rename_i noNext
      simp [noNext]
  leaderCommit := rfl
  numEntries := rfl
  metas := by
    simp only [Server.fillRequest, List.map_map]
    apply List.map_congr_left
    intro offset _
    exact logAt_term server (next + offset)
  inLog := sound.inLog
  located := sound.located

end

/-- What Lock B sends is built from the log. -/
theorem appendEntriesSend_spec
    (fi : Nat)
    {server : Server}
    (positive : server.SlotsPositive) :
    wp (appendEntriesSend fi)
      (fun built final =>
        final.view = server.view.clampNext fi ∧
          ∀ call, built = some call →
            (server.view.clampNext fi).Built fi call ∧
              (0 < call.lenEntries →
                call.next ∈ server.ring.logSlotMap))
      (fun _ final => final.view = server.view.clampNext fi) server := by
  have clamped := clampNext_view server fi
  have samePositive : (server.clampNext fi).SlotsPositive := positive
  simp only [appendEntriesSend, wp_bind, wp_modify, wp_get, wp_ite, wp_pure]
  split
  · exact ⟨clamped, fun call built => by cases built⟩
  · refine wp_mono (planRound_spec samePositive ?_) ?_ ?_
    · split <;> omega
    · rintro plan final ⟨rfl, sound⟩
      have built :=
        fillRequest_built (server.clampNext fi) fi rfl sound
      rw [clamped] at built
      split
      · refine ⟨(setInflight_view _ _ _).trans clamped, ?_⟩
        rintro call ⟨⟩
        exact ⟨built, sound.mapped⟩
      · refine ⟨clamped, ?_⟩
        rintro call ⟨⟩
        exact ⟨built, sound.mapped⟩
    · rintro _ final rfl
      exact clamped

/-- What Lock C can do with the progress of a member. -/
inductive View.Booked
    (view : View)
    (fi : Nat)
    (call : AppendCall) :
    Option AppendEntriesResponse → View → Prop where
  | ignored
      {answer : Option AppendEntriesResponse} :
      Booked view fi call answer view
  | succeeded
      {rsp : AppendEntriesResponse} :
      rsp.success = true →
      rsp.term ≤ view.term →
      (view.role = .leader → rsp.term = call.req.term) →
      Booked view fi call (some rsp)
        { view with
          nexts := view.nexts.modify fi fun next =>
            max next (max (call.next + call.lenEntries) 1)
          matched := view.matched.set fi
            (max (view.nexts.getD fi 0)
              (max (call.next + call.lenEntries) 1) - 1) }
  | failed
      {rsp : AppendEntriesResponse}
      {next : Nat} :
      next ≤ max (max (view.nexts.getD fi 0) 1)
        (view.matched.getD fi 0 + 1) →
      next = view.nexts.getD fi 0 ∨ view.matched.getD fi 0 + 1 ≤ next →
      Booked view fi call (some rsp)
        { view with nexts := view.nexts.set fi next }

section

variable (server : Server)

theorem applyAeSuccess_view
    (fi next lenEntries : Nat) :
    (server.applyAeSuccess fi next lenEntries).view =
      { server.view with
        nexts := server.view.nexts.modify fi fun member =>
          max member (max (next + lenEntries) 1)
        matched := server.view.matched.set fi
          (max (server.view.nexts.getD fi 0)
            (max (next + lenEntries) 1) - 1) } := by
  simp only [Server.applyAeSuccess, Server.mapMember, Server.mapRaft,
    Server.view, View.mk.injEq, true_and, and_true]
  refine ⟨map_modify_same _ _ fun _ => rfl,
    map_modify _ _ _ fun _ => rfl, ?_⟩
  rw [map_modify_getD server.raft.cluster fi { id := 0 }]
  have next := member_nextIndex server fi
  simp only [Server.member, Server.view] at next
  simp only [next]

/-- Backing off does not raise the next index. -/
theorem backoffNext_le
    (next prevLogIndex : Nat)
    (rsp : AppendEntriesResponse) :
    server.backoffNext next prevLogIndex rsp ≤ next := by
  simp only [Server.backoffNext]
  split_ifs <;> omega

theorem member_matchIndex
    (fi : Nat) :
    (server.member fi).matchIndex = server.view.matched.getD fi 0 := by
  simp only [Server.member, Server.view, List.getD_eq_getElem?_getD,
    List.getElem?_map]
  cases server.raft.cluster[fi]? <;> rfl

/-- The next index of a member after a rejection. -/
theorem applyAeFailureBackoff_next
    (fi prevLogIndex sentNext : Nat)
    (rsp : AppendEntriesResponse) :
    (server.applyAeFailureBackoff fi prevLogIndex sentNext rsp).view =
      { server.view with
        nexts := server.view.nexts.set fi
          (if server.view.nexts.getD fi 0 ≠ sentNext then
            server.view.nexts.getD fi 0
          else
            max (max (server.backoffNext (server.view.nexts.getD fi 0)
              prevLogIndex rsp) 1) (server.view.matched.getD fi 0 + 1)) } := by
  let change := fun member : ClusterMember =>
    if member.nextIndex ≠ sentNext then
      member
    else
      { member with
        nextIndex :=
          max (max (server.backoffNext member.nextIndex prevLogIndex rsp) 1)
            (member.matchIndex + 1) }
  have changed :
      (change (server.member fi)).nextIndex =
        if (server.member fi).nextIndex ≠ sentNext then
          (server.member fi).nextIndex
        else
          max (max (server.backoffNext (server.member fi).nextIndex
            prevLogIndex rsp) 1) ((server.member fi).matchIndex + 1) :=
    apply_ite ClusterMember.nextIndex _ _ _
  rw [← member_nextIndex, ← member_matchIndex, ← changed]
  show (server.mapMember fi change).view = _
  simp only [Server.mapMember, Server.mapRaft, Server.view, View.mk.injEq,
    true_and, and_true]
  refine ⟨map_modify_same _ _ fun member => ?_,
    map_modify_getD _ _ _, map_modify_same _ _ fun member => ?_⟩ <;>
  · simp only [change]
    split <;> rfl

theorem applyAeFailureBackoff_view
    (fi prevLogIndex sentNext : Nat)
    (rsp : AppendEntriesResponse) :
    ∃ next,
      next ≤ max (max (server.view.nexts.getD fi 0) 1)
          (server.view.matched.getD fi 0 + 1) ∧
        (next = server.view.nexts.getD fi 0 ∨
          server.view.matched.getD fi 0 + 1 ≤ next) ∧
        (server.applyAeFailureBackoff fi prevLogIndex sentNext rsp).view =
          { server.view with nexts := server.view.nexts.set fi next } := by
  have backs := backoffNext_le server (server.view.nexts.getD fi 0)
    prevLogIndex rsp
  refine ⟨_, ?_, ?_, applyAeFailureBackoff_next server fi prevLogIndex
    sentNext rsp⟩
  · split <;> omega
  · split
    · exact Or.inl rfl
    · exact Or.inr (le_max_right _ _)

end

/-- Booking an answer moves the progress of one member. -/
theorem appendEntriesReply_spec
    (fi : Nat)
    (call : AppendCall)
    (answer : Option AppendEntriesResponse)
    (server : Server) :
    wp (appendEntriesReply fi call answer)
      (fun _ final => server.view.Booked fi call answer final.view)
      (fun _ _ => False) server := by
  simp only [appendEntriesReply, wp_modify, Server.bookAnswer]
  generalize landed :
    (if call.hasEntries then server.setInflight fi false else server) = booked
  have same : booked.view = server.view := by
    rw [← landed]
    split
    · exact setInflight_view server fi false
    · rfl
  rw [← same]
  cases answer with
  | none =>
      exact .ignored
  | some rsp =>
      dsimp only
      split_ifs with higher other success
      · exact .ignored
      · exact .ignored
      · rw [applyAeSuccess_view]
        refine .succeeded success (Nat.not_lt.mp higher) fun leader => ?_
        exact by_contra fun differs => other ⟨differs, leader⟩
      · obtain ⟨next, bound, floor, viewed⟩ :=
          applyAeFailureBackoff_view booked fi call.req.prevLogIndex
            call.next rsp
        rw [viewed]
        exact .failed bound floor

/-- The own last index and the match index of every peer. -/
def View.matchIndices (view : View) : List Nat :=
  view.matched.mapIdx fun index matchIndex =>
    if index = view.index then view.tail - 1 else matchIndex

/-- The middle of the match indices in descending order. -/
def View.majority (view : View) : Nat :=
  let ordered := view.matchIndices.insertionSort (· ≥ ·)
  ordered.getD (ordered.length / 2) 0

/-- Whether `advance_commit_index` moves the commit index. -/
structure View.CanCommit (view : View) : Prop where
  leader : view.role = .leader
  ahead : view.commit < view.majority
  inLog : view.majority < view.tail
  currentTerm : view.termAt view.majority = view.term

section

variable (server : Server)

theorem matchIndices_eq :
    server.matchIndices = server.view.matchIndices := by
  apply List.ext_getElem?
  intro position
  simp only [Server.matchIndices, View.matchIndices, Server.view,
    List.getElem?_mapIdx, List.getElem?_map]
  cases server.raft.cluster[position]? <;> rfl

/-- The majority index is read off the view. -/
theorem majorityIndex_eq :
    server.majorityIndex = server.view.majority := by
  unfold Server.majorityIndex View.majority
  rw [matchIndices_eq]

/-- Signalling entries does not change their terms. -/
theorem signalCommittedFrom_view :
    ∀ count logIdx (server : Server),
      (signalCommittedFrom count logIdx server).view = server.view := by
  intro count
  induction count with
  | zero =>
      intro logIdx server
      rfl
  | succ count inductionHypothesis =>
      intro logIdx server
      rw [signalCommittedFrom, inductionHypothesis]
      split
      · simp only [Server.mapRaft, Server.view, View.mk.injEq, true_and,
          and_true]
        exact map_modify_same _ _ fun _ => rfl
      · rfl

end

/-- The commit index goes up by the rule, or stays. -/
theorem advanceCommitIndex_spec
    (server : Server) :
    wp advanceCommitIndex
      (fun _ final =>
        final.view = server.view ∨
          server.view.CanCommit ∧
            final.view = { server.view with commit := server.view.majority })
      (fun _ _ => False) server := by
  simp only [advanceCommitIndex, wp_bind, wp_get, wp_ite, wp_modify, wp_pure,
    majorityIndex_eq, logAt_term]
  split
  · rename_i allowed
    refine Or.inr ⟨⟨allowed.1, allowed.2.1, allowed.2.2.1,
      allowed.2.2.2⟩, ?_⟩
    rw [Server.commitTo, signalCommittedFrom_view]
    rfl
  · exact Or.inl trivial

/-- The view after entries of the current term have been appended. -/
def View.pushMany
    (view : View)
    (count : Nat) :
    View :=
  { view with
    log := view.log ++ List.replicate count view.term
    tail := view.tail + count }

/-- Of client commands the view keeps the term of each. -/
theorem appendCommands_view
    (sink : Nat) :
    ∀ (commands : List (List UInt8)) (server : Server),
      (server.appendCommands sink commands).view =
        server.view.pushMany commands.length := by
  intro commands
  induction commands with
  | nil =>
      intro server
      simp [Server.appendCommands, View.pushMany]
  | cons command rest inductionHypothesis =>
      intro server
      have step :
          server.appendCommands sink (command :: rest) =
            (server.pushEntry {
              command
              term := server.raft.currentTerm
              resultSink := some sink }).appendCommands sink rest :=
        rfl
      rw [step, inductionHypothesis, pushEntry_view]
      simp only [View.pushMany, View.push, List.append_assoc,
        List.singleton_append, List.length_cons, List.replicate_succ]
      refine congrArg₂ (fun log tail =>
        { server.view with log := log, tail := tail }) rfl ?_
      omega

/-- The rollback undoes the append, as long as the sentinel is there. -/
theorem popEntries_view :
    ∀ count (server : Server) (view : View),
      view.log ≠ [] →
      server.view = view.pushMany count →
      (server.popEntries count).view = view := by
  intro count
  induction count with
  | zero =>
      intro server view _ pushed
      rw [Server.popEntries, pushed]
      simp [View.pushMany]
  | succ count inductionHypothesis =>
      intro server view sentinel pushed
      have size : server.raft.log.length = view.log.length + (count + 1) := by
        have logged := congrArg (fun view => view.log.length) pushed
        simpa [Server.view, View.pushMany] using logged
      have positive := List.length_pos_of_ne_nil sentinel
      rw [Server.popEntries, if_pos (by omega)]
      apply inductionHypothesis _ view sentinel
      have popped :
          ∀ server : Server,
            { server with
              raft := { server.raft with log := server.raft.log.dropLast }
              ring := { server.ring with
                tailLogIndex := sub64 server.ring.tailLogIndex 1 } }.view =
              { server.view with
                log := server.view.log.dropLast
                tail := sub64 server.view.tail 1 } := by
        intro server
        simp only [Server.view, List.map_dropLast]
      rw [popped, pushed]
      simp only [View.pushMany, View.mk.injEq, true_and, and_true]
      refine ⟨?_, ?_⟩
      · rw [List.replicate_succ', ← List.append_assoc,
          List.dropLast_concat]
      · rw [sub64_of_le (by omega)]
        omega

/-- Client commands are appended by a leader, or the view stays. -/
theorem applyCommands_spec
    (sink : Nat)
    (commands : List (List UInt8))
    {server : Server}
    (sentinel : server.view.log ≠ []) :
    wp (applyCommands sink commands)
      (fun outcome final =>
        outcome ≠ .replicating ∧ final.view = server.view ∨
          outcome = .replicating ∧ server.view.role = .leader ∧
            final.view = server.view.pushMany commands.length)
      (fun _ _ => False) server := by
  have pushed := appendCommands_view sink commands server
  simp only [applyCommands, wp_bind, wp_get, wp_ite, wp_pure, wp_modify,
    wp_tryCatch]
  split_ifs with empty follower full
  · exact Or.inl ⟨by simp, trivial⟩
  · exact Or.inl ⟨by simp, trivial⟩
  · exact Or.inl ⟨by simp, trivial⟩
  · refine wp_persistCircular (fun final same => ?_) (fun _ final same => ?_)
    · refine Or.inr ⟨trivial, ?_, same.trans pushed⟩
      exact by_contra fun other => follower other
    · exact Or.inl ⟨by simp,
        popEntries_view _ final server.view sentinel (same.trans pushed)⟩

theorem applyEntry_view
    (server : Server) :
    server.applyEntry.view =
      { server.view with applied := server.view.applied + 1 } := by
  simp only [Server.applyEntry, Server.view, View.mk.injEq, true_and,
    and_true]
  exact map_modify_same _ _ fun _ => rfl

theorem applyPendingLoop_view
    (oldest : Nat) :
    ∀ bound (server : Server),
      ∃ applied,
        server.view.Applies applied ∧
          (applyPendingLoop oldest bound server).view =
            { server.view with applied } := by
  intro bound
  induction bound with
  | zero =>
      intro server
      exact ⟨server.view.applied, ⟨le_refl _, le_max_left _ _⟩, rfl⟩
  | succ bound inductionHypothesis =>
      intro server
      unfold applyPendingLoop
      split
      · rename_i canApply
        obtain ⟨applied, ⟨lower, upper⟩, viewed⟩ :=
          inductionHypothesis server.applyEntry
        rw [applyEntry_view] at lower upper viewed
        refine ⟨applied, ⟨Nat.le_of_succ_le lower, ?_⟩, viewed⟩
        simp only [Server.canApply, Bool.and_eq_true,
          decide_eq_true_eq] at canApply
        simp only [Server.view] at upper ⊢
        omega
      · exact ⟨server.view.applied, ⟨le_refl _, le_max_left _ _⟩, rfl⟩

/-- Applying moves `last_applied` and nothing else in the view. -/
theorem applyPending_spec
    (server : Server) :
    wp applyPending
      (fun _ final =>
        ∃ applied,
          server.view.Applies applied ∧
            final.view = { server.view with applied })
      (fun _ _ => False) server := by
  simp only [applyPending, wp_modify, Server.applyCommitted]
  split
  · exact applyPendingLoop_view _ _ server
  · exact ⟨server.view.applied, ⟨le_refl _, le_max_left _ _⟩, rfl⟩

/-- The view after the oldest entries have been trimmed. -/
def View.trim
    (view : View)
    (removed : Nat) :
    View :=
  { view with log := view.log.take 1 ++ view.log.drop (1 + removed) }

/-- What `trim_log_locked` may remove. -/
def View.Trims
    (view : View)
    (removed : Nat) : Prop :=
  removed = 0 ∨
    removed ≤ view.log.length - 1 ∧
      view.oldest + removed ≤ view.applied ∧
        view.oldest + removed ≤ view.tail - 1

/-- No follower has matched more than the log. -/
theorem minMatch_le
    (server : Server) :
    server.minMatch ≤ server.view.tail - 1 := by
  have folded :
      ∀ (values : List Nat) (start : Nat), values.foldl min start ≤ start := by
    intro values
    induction values with
    | nil =>
        exact fun start => le_refl start
    | cons value rest inductionHypothesis =>
        exact fun start =>
          (inductionHypothesis (min start value)).trans (min_le_left _ _)
  exact folded _ _

theorem trim_zero
    (view : View) :
    view.trim 0 = view := by
  rw [View.trim, List.take_append_drop]

/-- Trimming cuts the front of the log. -/
theorem trimLogLocked_view
    {minMatch : Nat}
    (server : Server)
    (bound : minMatch ≤ server.view.tail - 1) :
    ∃ removed,
      server.view.Trims removed ∧
        (trimLogLocked minMatch server).view = server.view.trim removed := by
  unfold trimLogLocked
  dsimp only
  split
  · exact ⟨0, Or.inl rfl, (trim_zero _).symm⟩
  · rename_i trims
    refine ⟨min (min minMatch server.raft.lastApplied - server.oldestLogIndex)
      (server.raft.log.length - 1), Or.inr ⟨?_, ?_, ?_⟩, ?_⟩
    · simp [Server.view]
    · rw [← oldestLogIndex_eq]
      simp only [Server.view]
      omega
    · rw [← oldestLogIndex_eq]
      omega
    · simp [Server.mapRaft, Server.view, View.trim]

theorem freeSlots_view
    (server : Server)
    (minMatch : Nat) :
    { server with ring := server.ring.freeSlots minMatch }.view =
      server.view := by
  obtain ⟨headSlot, same⟩ := freeSlots_only server.ring minMatch
  rw [same]
  rfl

/-- Garbage collection trims the log at most. -/
theorem doSlotGc_spec
    (server : Server) :
    wp doSlotGc
      (fun _ final =>
        ∃ removed,
          server.view.Trims removed ∧
            final.view = server.view.trim removed)
      (fun _ _ => False) server := by
  simp only [doSlotGc, wp_modify, Server.collectGarbage]
  split
  · have same := freeSlots_view server server.minMatch
    have bound :
        server.minMatch ≤
          { server with
            ring := server.ring.freeSlots server.minMatch }.view.tail - 1 := by
      rw [same]
      exact minMatch_le server
    have trimmed := trimLogLocked_view _ bound
    rw [same] at trimmed
    exact trimmed
  · exact ⟨0, Or.inl rfl, (trim_zero _).symm⟩

end NvmeofRaft
