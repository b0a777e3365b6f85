import NvmeofRaft.FullLog
import NvmeofRaft.Lines

namespace NvmeofRaft

/-!
# Batches of entries

An append request carries a piece of the log of its sender.  A follower that
takes it over has the sender's log up to the end of the batch, provided that
the entries it skips are those of the batch.
-/

/-- The terms of the entries in a request. -/
def AppendEntriesRequest.terms (req : AppendEntriesRequest) : List Nat :=
  req.entryMetas.map EntryMeta.term

/-- The index of the last entry in a request, or the previous index. -/
def AppendEntriesRequest.lastIndex (req : AppendEntriesRequest) : Nat :=
  req.prevLogIndex + req.numEntries

/-- The request carries the end of the log. -/
structure Carries
    (req : AppendEntriesRequest)
    (log : List Nat) : Prop where
  entries : req.terms = log.drop req.prevLogIndex
  length : log.length = req.lastIndex
  prevTerm :
    req.prevLogTerm = 0 ∨
      0 < req.prevLogIndex ∧
        log[req.prevLogIndex - 1]? = some req.prevLogTerm

namespace Carries

variable {req : AppendEntriesRequest} {log : List Nat}

theorem metas_length
    (carries : Carries req log) :
    req.entryMetas.length = req.numEntries := by
  have length := congrArg List.length carries.entries
  have whole := carries.length
  simp only [AppendEntriesRequest.terms, List.length_map,
    List.length_drop] at length
  unfold AppendEntriesRequest.lastIndex at whole
  omega

/-- An entry of the batch is the one of the log. -/
theorem entry
    (carries : Carries req log)
    {position term : Nat}
    (found : req.terms[position]? = some term) :
    log[req.prevLogIndex + position]? = some term := by
  rw [carries.entries, List.getElem?_drop] at found
  exact found

/-- The leader's copy of the data leaves the entries alone. -/
theorem copied
    {call : AppendCall}
    (carries : Carries call.req log) :
    Carries call.copied.req log :=
  ⟨carries.entries, carries.length, carries.prevTerm⟩

end Carries

/-- The last entry that is skipped is the one in the batch. -/
def View.skipAgrees
    (view : View)
    (pending : PendingAppend) :
    Bool :=
  decide (pending.skipEntries = 0) ||
    decide (pending.req.terms.getD (pending.skipEntries - 1) 0 =
      view.lastTerm)

instance
    (view : View)
    (req : AppendEntriesRequest) :
    Decidable (view.Accepts req) :=
  decidable_of_iff
    (view.role = .follower ∧ req.term = view.term ∧ view.prevOk req = true)
    ⟨fun all => ⟨all.1, all.2.1, all.2.2⟩,
      fun accepts => ⟨accepts.follower, accepts.sameTerm, accepts.prevOk⟩⟩

instance
    (view : View)
    (req : AppendEntriesRequest) :
    Decidable (view.Extends req) :=
  inferInstanceAs (Decidable (_ ∧ _ ∧ _))

/--
When a handler appends the rest of a batch, the last entry it skips is the one
in the batch.
-/
def Node.skipsAgree
    (node : Node) :
    Act → Bool
  | .handleAppend _ req =>
      let view := node.view.meet req.term
      !decide (view.Accepts req ∧ view.Extends req ∧
          req.dataAlreadyCopied = true) ||
        view.skipAgrees (view.pending req)
  | .handleAppendFinish index true =>
      match node.threads[index]? with
      | some (.appendHandler _ pending) => node.view.skipAgrees pending
      | _ => true
  | _ => true

section

variable {line : Nat → List Nat} {full log : List Nat}
variable {req : AppendEntriesRequest} {view : View} {pending : PendingAppend}

/--
What a handler that has checked the previous entry knows, as long as the tail
does not move: its batch starts where its log ends, or skips some of it.
-/
structure PendingAppend.Meets
    (pending : PendingAppend)
    (full log : List Nat) : Prop where
  begins : pending.newTail = pending.req.prevLogIndex + 1
  within : pending.newTail + pending.skipEntries ≤ full.length + 1
  joins :
    pending.newTail + pending.skipEntries = full.length + 1 →
    pending.skipEntries = 0 →
    full = log.take pending.req.prevLogIndex

/-- The tail has moved on, so the handler will find it moved. -/
theorem PendingAppend.Meets.grow
    {added : List Nat}
    (meets : pending.Meets full log) :
    pending.Meets (full ++ added) log := by
  have within := meets.within
  refine ⟨meets.begins, ?_, ?_⟩
  · rw [List.length_append]
    omega
  · intro here noSkip
    rw [List.length_append] at here
    have none : added = [] := by
      apply List.eq_nil_of_length_eq_zero
      omega
    rw [none, List.append_nil]
    exact meets.joins (by omega) noSkip

/-- A checked request joins the log it has been checked against. -/
theorem View.pending_meets
    (holds : view.Holds full)
    (follows : Follows line full)
    (logFollows : Follows line log)
    (positive : 0 ∉ full)
    (carries : Carries req log)
    (accepts : view.Accepts req) :
    (view.pending req).Meets full log := by
  have prevOk := accepts.prevOk
  simp only [View.prevOk, Bool.or_eq_true, Bool.and_eq_true,
    decide_eq_true_eq] at prevOk
  have tail := holds.tail
  refine ⟨rfl, ?_, ?_⟩
  · simp only [View.pending]
    omega
  · intro here noSkip
    simp only [View.pending] at here noSkip ⊢
    by_cases first : req.prevLogIndex = 0
    · have empty : full = [] := by
        apply List.eq_nil_of_length_eq_zero
        omega
      rw [empty, first, List.take_zero]
    · have ends : req.prevLogIndex = full.length := by
        omega
      have nonempty : full ≠ [] := by
        apply List.ne_nil_of_length_pos
        omega
      have inMemory : view.oldest ≤ req.prevLogIndex := by
        rw [ends]
        exact holds.oldest_le nonempty
      have agrees : view.termAt req.prevLogIndex = req.prevLogTerm := by
        rcases prevOk with impossible | ⟨-, below | same⟩
        · exact absurd impossible first
        · omega
        · exact same
      have found := holds.termAt inMemory (by omega)
      rw [agrees] at found
      have inLog : log[req.prevLogIndex - 1]? = some req.prevLogTerm := by
        rcases carries.prevTerm with zero | ⟨-, same⟩
        · rw [zero] at found
          exact absurd (List.mem_of_getElem? found) positive
        · exact same
      have same := follows.agree logFollows found inLog
      rw [Nat.sub_add_cancel (Nat.pos_of_ne_zero first)] at same
      rw [← same, List.take_of_length_le (Nat.le_of_eq ends.symm)]

/-- The log after a batch has been taken over is the log of its sender. -/
theorem PendingAppend.Meets.takes_over
    (meets : pending.Meets full log)
    (holds : view.Holds full)
    (follows : Follows line full)
    (logFollows : Follows line log)
    (carries : Carries pending.req log)
    (unmoved : full.length + 1 = pending.newTail + pending.skipEntries)
    (agrees : view.skipAgrees pending = true)
    (reaches : pending.Reaches) :
    full ++ pending.req.terms.drop pending.skipEntries = log := by
  have begins := meets.begins
  have position :
      pending.req.prevLogIndex + pending.skipEntries = full.length := by
    omega
  have front : full = log.take full.length := by
    by_cases noSkip : pending.skipEntries = 0
    · have joins := meets.joins unmoved.symm noSkip
      have ends : pending.req.prevLogIndex = full.length := by
        omega
      rw [ends] at joins
      exact joins
    · -- the last skipped entry stands at the same place in both logs
      simp only [View.skipAgrees, noSkip, decide_false, Bool.false_or,
        decide_eq_true_eq] at agrees
      have nonempty : full ≠ [] := by
        apply List.ne_nil_of_length_pos
        omega
      obtain ⟨last, ends⟩ := getLast?_of_ne_nil nonempty
      rw [holds.lastTerm, getLastD_of_getLast? ends] at agrees
      have inside : pending.skipEntries - 1 < pending.req.terms.length := by
        have short : pending.skipEntries < pending.req.numEntries := reaches
        rw [AppendEntriesRequest.terms, List.length_map,
          carries.metas_length]
        omega
      have inBatch :
          pending.req.terms[pending.skipEntries - 1]? = some last := by
        rw [← agrees, List.getD_eq_getElem?_getD,
          List.getElem?_eq_getElem inside]
        rfl
      have inLog := carries.entry inBatch
      have same : pending.req.prevLogIndex + (pending.skipEntries - 1) =
          full.length - 1 := by
        omega
      rw [same] at inLog
      rw [List.getLast?_eq_getElem?] at ends
      have taken := follows.agree logFollows ends inLog
      have length := List.length_pos_of_ne_nil nonempty
      rw [Nat.sub_add_cancel length, List.take_length] at taken
      exact taken
  rw [carries.entries, List.drop_drop, position]
  nth_rewrite 1 [front]
  exact List.take_append_drop full.length log

end

/-- A request carries the end of some log on the lines. -/
def Slice
    (line : Nat → List Nat)
    (req : AppendEntriesRequest) : Prop :=
  ∃ log, Follows line log ∧ Carries req log

theorem View.clampNext_le
    (view : View)
    (fi : Nat) :
    (view.clampNext fi).nexts.getD fi 0 ≤ view.tail - 1 + 1 := by
  simp only [View.clampNext, List.getD_eq_getElem?_getD,
    List.getElem?_modify_eq]
  cases view.nexts[fi]? with
  | none =>
      exact Nat.zero_le _
  | some next =>
      exact min_le_right _ _

/-- What is in a request that has been built from a full log. -/
theorem View.Built.carries
    {view : View}
    {full : List Nat}
    {fi : Nat}
    {call : AppendCall}
    (built : (view.clampNext fi).Built fi call)
    (holds : view.Holds full)
    (inMemory : 0 < call.lenEntries → view.oldest ≤ call.next) :
    Carries call.req (full.take call.req.lastIndex) ∧
      call.req.lastIndex ≤ full.length := by
  have positive := holds.oldest_pos
  have tail := holds.tail
  have sameTail : (view.clampNext fi).tail = view.tail := rfl
  have inLog := built.inLog
  have prev := built.prevLogIndex
  have count := built.numEntries
  have nextBound : call.next ≤ view.tail - 1 + 1 := by
    rw [built.fromNext]
    exact View.clampNext_le view fi
  have within : call.req.lastIndex ≤ full.length := by
    rw [AppendEntriesRequest.lastIndex, prev, count]
    omega
  have sameTermAt :
      ∀ logIdx, (view.clampNext fi).termAt logIdx = view.termAt logIdx :=
    fun _ => rfl
  refine ⟨⟨?_, ?_, ?_⟩, within⟩
  · rw [AppendEntriesRequest.terms, built.metas]
    apply List.ext_getElem?
    intro offset
    rw [List.getElem?_map, List.getElem?_drop, List.getElem?_take]
    by_cases inside : offset < call.lenEntries
    · have notBelow := inMemory (by omega)
      rw [List.getElem?_range inside, if_pos
        (by rw [AppendEntriesRequest.lastIndex, count]; omega)]
      have found := holds.termAt (show view.oldest ≤ call.next + offset by
        omega) (by omega)
      rw [prev, show call.next - 1 + offset = call.next + offset - 1 by omega,
        found]
      rfl
    · rw [List.getElem?_eq_none (by rw [List.length_range]; omega), if_neg
        (by rw [AppendEntriesRequest.lastIndex, count]; omega)]
      rfl
  · rw [List.length_take]
    omega
  · rw [built.prevLogTerm]
    split
    · rename_i held
      have below : view.oldest ≤ call.next - 1 := held.2.1
      refine Or.inr ⟨by omega, ?_⟩
      have found := holds.termAt below (by omega)
      rw [List.getElem?_take_of_lt (by
        rw [AppendEntriesRequest.lastIndex]; omega), prev, found,
        sameTermAt]
    · exact Or.inl rfl

end NvmeofRaft
