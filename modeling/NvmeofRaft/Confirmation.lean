import NvmeofRaft.Commitment
import NvmeofRaft.Progress

namespace NvmeofRaft

/-!
# Confirmed entries

What a request that brings nothing new says about the log, what trimming leaves
of the log above the commit index, and how far a leader takes a follower's log
to reach.
-/

section

variable {line : Nat → List Nat} {full log : List Nat}
variable {req : AppendEntriesRequest} {view : View}

/-- The last term of a batch is the one at the end of the log it carries. -/
theorem Carries.lastTerm
    (carries : Carries req log)
    (some : 0 < req.numEntries) :
    log[req.lastIndex - 1]? = Option.some (req.terms.getLastD 0) := by
  have length := carries.length
  have shape : req.prevLogIndex < log.length := by
    rw [length, AppendEntriesRequest.lastIndex]
    omega
  have nonempty : log.drop req.prevLogIndex ≠ [] := by
    apply List.ne_nil_of_length_pos
    rw [List.length_drop]
    omega
  obtain ⟨last, ends⟩ := getLast?_of_ne_nil nonempty
  rw [carries.entries, getLastD_of_getLast? ends, ← length]
  rw [List.getLast?_drop, if_neg (Nat.not_le.mpr shape),
    List.getLast?_eq_getElem?] at ends
  exact ends

/-- Two logs with the same entry at the end of the shorter one. -/
theorem Follows.front
    (follows : Follows line full)
    (logFollows : Follows line log)
    {term : Nat}
    (inFull : full[log.length - 1]? = some term)
    (inLog : log[log.length - 1]? = some term) :
    log <+: full := by
  have positive : 0 < log.length := by
    have inside := (List.getElem?_eq_some_iff.mp inLog).1
    omega
  have same := follows.agree logFollows inFull inLog
  rw [Nat.sub_add_cancel positive, List.take_length] at same
  rw [← same]
  exact List.take_prefix _ _

/--
A request that is accepted and brings nothing new confirms that the log starts
with the one of the sender, when what has been trimmed does.
-/
theorem View.confirmed_front
    (holds : view.Holds full)
    (follows : Follows line full)
    (logFollows : Follows line log)
    (positive : 0 ∉ full)
    (carries : Carries req log)
    (located : 0 < req.numEntries → req.leaderPbaSrc ≠ 0)
    (trimmed : ∀ index, index < view.oldest → log.take index <+: full)
    (accepts : view.Accepts req)
    (nothing : ¬ view.Extends req)
    (confirms : view.confirmsBatch req = true) :
    log <+: full := by
  have length := carries.length
  have tail := holds.tail
  have prevOk := accepts.prevOk
  simp only [View.prevOk, Bool.or_eq_true, Bool.and_eq_true,
    decide_eq_true_eq] at prevOk
  simp only [View.confirmsBatch, Bool.or_eq_true, Bool.and_eq_true,
    decide_eq_true_eq] at confirms
  by_cases empty : log.length = 0
  · rw [List.eq_nil_of_length_eq_zero empty]
    exact List.nil_prefix
  by_cases below : req.lastIndex < view.oldest
  · have whole := trimmed _ below
    rwa [← length, List.take_length] at whole
  have inMemory : view.oldest ≤ req.lastIndex := Nat.not_lt.mp below
  by_cases none : req.numEntries = 0
  · -- a heartbeat confirms the previous entry
    have ends : req.lastIndex = req.prevLogIndex := by
      rw [AppendEntriesRequest.lastIndex, none, Nat.add_zero]
    rcases prevOk with first | ⟨inLog, impossible | agrees⟩
    · omega
    · omega
    · have found := holds.termAt (ends ▸ inMemory) (by omega)
      rw [agrees] at found
      rcases carries.prevTerm with zero | ⟨-, sent⟩
      · rw [zero] at found
        exact absurd (List.mem_of_getElem? found) positive
      · rw [← ends, ← length] at found sent
        exact follows.front logFollows found sent
  · -- the last entry of the batch is in the log already
    have batch : 0 < req.numEntries := Nat.pos_of_ne_zero none
    have short : req.numEntries ≤ view.tail - (req.prevLogIndex + 1) := by
      by_contra more
      exact nothing ⟨batch, located batch, Nat.not_le.mp more⟩
    have inLog : req.lastIndex < view.tail := by
      rw [AppendEntriesRequest.lastIndex]
      omega
    have agrees : view.termAt req.lastIndex = req.terms.getLastD 0 := by
      rcases confirms.1 with (impossible | impossible) | same
      · exact absurd impossible none
      · exact absurd impossible below
      · exact same
    have found := holds.termAt inMemory inLog
    have sent := carries.lastTerm batch
    rw [agrees] at found
    rw [← length] at found sent
    exact follows.front logFollows found sent

end

/-- What has been trimmed or applied is committed, and that is in the log. -/
structure View.Settled (view : View) : Prop where
  trimmed : view.oldest ≤ view.commit + 1
  applied : view.applied ≤ view.commit + 1
  committed : view.commit ≤ view.tail - 1

section

variable {mapped : Nat → Prop} {node after : Node} {act : Act}
variable {outputs : Outputs}

theorem View.Revoted.sameApplied
    {before after : View}
    (revoted : before.Revoted after) :
    after.applied = before.applied := by
  obtain ⟨_, _, _, rfl⟩ := revoted
  rfl

theorem View.complete_applied
    (view : View)
    (pending : PendingAppend) :
    (view.complete pending).applied = view.applied := by
  unfold View.complete View.followCommit View.build
  split <;> rfl

theorem View.Handled.sameApplied
    {view after : View}
    {req : AppendEntriesRequest}
    {result : Option AppendProgress}
    (handled : view.Handled req result after) :
    after.applied = view.applied := by
  have met := (view.revoted_meet req.term).sameApplied
  cases handled with
  | demotionThrew _ =>
      exact (view.revoted_bump req.term).sameApplied
  | refused _ _ =>
      exact met
  | followed _ _ _ =>
      exact met
  | copying _ _ _ =>
      exact met
  | completed _ _ _ _ =>
      rw [View.complete_applied]
      exact met

/-- The apply loops stop behind the commit index. -/
theorem Node.Step.applied_le
    (step : node.Step mapped act after outputs)
    (stays : act.isRestart = false) :
    after.view.applied ≤ max node.view.applied (node.view.commit + 1) := by
  have same :
      ∀ {applied : Nat},
        applied = node.view.applied →
        applied ≤ max node.view.applied (node.view.commit + 1) :=
    fun equal => equal ▸ le_max_left _ _
  cases step with
  | electionWon _ _ applies =>
      exact applies.2
  | electionThrew _ _ applies =>
      exact applies.2
  | entriesApplied applies =>
      exact applies.2
  | voteCounted _ =>
      exact same (View.revoted_reply _ _ _).sameApplied
  | voteCountThrew _ =>
      exact same (View.revoted_reply _ _ _).sameApplied
  | appendAnswered _ booked =>
      cases booked <;> exact same rfl
  | voteHandled =>
      exact same (View.revoted_voted _).sameApplied
  | voteHandlerThrew viewed =>
      rcases viewed with rfl | rfl
      · exact same (View.revoted_bump _).sameApplied
      · exact same (View.revoted_voted _).sameApplied
  | appendReplied handled =>
      exact same handled.sameApplied
  | appendBegun handled =>
      exact same handled.sameApplied
  | appendHandlerThrew handled =>
      exact same handled.sameApplied
  | @appendFinished index src pending copied view found viewed =>
      refine same ?_
      rw [viewed]
      split
      · exact View.complete_applied _ _
      · rfl
  | appendFinishThrew _ =>
      exact same (View.complete_applied _ _)
  | restarted =>
      cases stays
  | restartThrew =>
      cases stays
  | _ =>
      exact same rfl

/-- A step trims nothing that is not committed. -/
theorem Node.Step.settled
    (step : node.Step mapped act after outputs)
    (indexed : node.view.Indexed)
    (reach : node.HandlersReach)
    (unmoved : node.tailUnmoved act = true)
    (stays : act.isRestart = false)
    (settled : node.view.Settled) :
    after.view.Settled := by
  have noRestart := Act.not_restart stays
  have forward := step.commitForward indexed reach unmoved noRestart
  have indexedAfter := step.indexed indexed reach unmoved noRestart
  have applied := step.applied_le stays
  have settledApplied := settled.applied
  have trimmed := settled.trimmed
  have notBack : node.view.commit ≤ after.view.commit := by
    rcases forward with same | ⟨higher, -⟩
    · exact le_of_eq same.symm
    · exact Nat.le_of_lt higher
  refine ⟨?_, by omega, indexedAfter.committed⟩
  by_cases collects : act = .slotGc
  · subst collects
    cases step with
    | @collected removed trims =>
        rcases trims with rfl | ⟨within, below, -⟩
        · have oldest := (View.trim_oldest indexed (Nat.zero_le _)).2
          rw [oldest, Nat.add_zero]
          exact trimmed
        · have oldest := (View.trim_oldest indexed within).2
          rw [oldest]
          exact below.trans settledApplied
  · have keepsFront : act.keepsFront = true := by
      cases act with
      | slotGc =>
          exact absurd rfl collects
      | restart _ _ =>
          cases stays
      | _ =>
          rfl
    have grown := step.grown
      (Nat.lt_of_lt_of_le indexed.sentinel indexed.covered) reach unmoved
      keepsFront
    rw [grown.oldest indexed.sentinel indexed.covered]
    omega

/-- A restarted node is settled. -/
theorem Node.Step.settled_of_restart
    (step : node.Step mapped act after outputs)
    (restarts : act.isRestart = true) :
    after.view.Settled := by
  cases step with
  | restarted =>
      exact ⟨Nat.le_refl 1, Nat.le_refl 1, Nat.zero_le _⟩
  | restartThrew =>
      exact ⟨Nat.zero_le _, Nat.zero_le _, Nat.zero_le _⟩
  | _ =>
      cases restarts

end

/-- The leader takes the log of the member to reach the index. -/
def View.Reached
    (view : View)
    (member index : Nat) : Prop :=
  index ≤ view.matched.getD member 0 ∨
    index ≤ view.nexts.getD member 0 - 1

section

variable {mapped : Nat → Prop} {node after : Node} {act : Act}
variable {outputs : Outputs} {view final : View} {member index : Nat}

theorem View.SameProgress.reached
    (same : view.SameProgress final)
    (reached : final.Reached member index) :
    view.Reached member index := by
  rw [View.Reached, same.nexts, same.matched] at reached
  exact reached

theorem View.reached_of_clamp
    {fi : Nat}
    (reached : (view.clampNext fi).Reached member index) :
    view.Reached member index := by
  rcases reached with matched | next
  · exact Or.inl matched
  · refine Or.inr (next.trans (Nat.sub_le_sub_right ?_ 1))
    simp only [View.clampNext, List.getD_eq_getElem?_getD,
      List.getElem?_modify]
    cases view.nexts[member]? with
    | none =>
        exact Nat.le_refl _
    | some next =>
        by_cases here : fi = member
        · simp [here]
        · simp [here]

/-- An answer takes a member as far as it had been, or as its request went. -/
theorem View.Booked.reached
    {fi : Nat}
    {call : AppendCall}
    {rsp : AppendEntriesResponse}
    (booked : view.Booked fi call (some rsp) final)
    (reached : final.Reached member index) :
    view.Reached member index ∨
      member = fi ∧ rsp.success = true ∧
        index ≤ max (call.next + call.lenEntries) 1 - 1 := by
  have atMember :
      ∀ (list : List Nat) (value : Nat),
        fi = member →
        (list.set fi value).getD member 0 ≤ value := by
    rintro list value rfl
    rw [List.getD_eq_getElem?_getD]
    cases held : (list.set fi value)[fi]? with
    | none =>
        exact Nat.zero_le _
    | some found =>
        obtain ⟨rfl, -⟩ := getElem?_set_self_eq_some held
        exact Nat.le_refl _
  have elsewhere :
      ∀ (list : List Nat) (value : Nat),
        fi ≠ member →
        (list.set fi value).getD member 0 = list.getD member 0 := by
    intro list value other
    rw [List.getD_eq_getElem?_getD, List.getElem?_set_ne other,
      ← List.getD_eq_getElem?_getD]
  cases booked with
  | ignored =>
      exact Or.inl reached
  | succeeded success _ _ =>
      simp only [View.Reached, modify_eq_set_getD] at reached ⊢
      by_cases here : fi = member
      · have nexts := atMember view.nexts
          (max (view.nexts.getD fi 0) (max (call.next + call.lenEntries) 1))
          here
        have matched := atMember view.matched
          (max (view.nexts.getD fi 0)
            (max (call.next + call.lenEntries) 1) - 1) here
        rw [here] at nexts matched reached
        by_cases further : index ≤ max (call.next + call.lenEntries) 1 - 1
        · exact Or.inr ⟨here.symm, success, further⟩
        · omega
      · rw [elsewhere _ _ here, elsewhere _ _ here] at reached
        exact Or.inl reached
  | @failed rsp next bound floor =>
      refine Or.inl ?_
      simp only [View.Reached] at reached ⊢
      by_cases here : fi = member
      · have nexts := atMember view.nexts next here
        rw [here] at nexts reached bound
        omega
      · rw [elsewhere _ _ here] at reached
        exact reached

/-- Where a leader's belief about a member comes from. -/
theorem Node.Step.reached
    (step : node.Step mapped act after outputs)
    (stays : act.isRestart = false)
    (reached : after.view.Reached member index) :
    node.view.Reached member index ∨ node.wins act = true ∨
      ∃ position call rsp,
        act = .appendReply position rsp ∧
          node.threads[position]? = some (.appendCall member call) ∧
            rsp.success = true ∧
              index ≤ max (call.next + call.lenEntries) 1 - 1 := by
  cases step.progressEffect stays with
  | kept same =>
      exact Or.inl (same.reached reached)
  | clamped viewed =>
      rw [viewed] at reached
      exact Or.inl (View.reached_of_clamp reached)
  | booked found booked =>
      rcases booked.reached reached with old | ⟨rfl, success, within⟩
      · exact Or.inl old
      · exact Or.inr (Or.inr ⟨_, _, _, rfl, found, success, within⟩)
  | reset wins _ =>
      exact Or.inr (Or.inl wins)

/-- A new leader takes nobody's log to reach further than its own did. -/
theorem View.reached_of_reset
    {applied : Nat}
    (reached : (view.promoted applied).resetProgress.Reached member index) :
    index ≤ view.tail - 1 := by
  simp only [View.Reached, View.resetProgress, View.promoted, View.push,
    List.getD_eq_getElem?_getD, List.getElem?_map] at reached
  rcases reached with matched | next
  · cases found : view.matched[member]? with
    | none =>
        rw [found] at matched
        exact matched.trans (Nat.zero_le _)
    | some _ =>
        rw [found] at matched
        exact matched.trans (Nat.zero_le _)
  · cases found : view.nexts[member]? with
    | none =>
        rw [found] at next
        exact next.trans (Nat.zero_le _)
    | some _ =>
        rw [found] at next
        exact next

end

end NvmeofRaft
