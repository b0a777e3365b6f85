import NvmeofRaft.LogIndex

namespace NvmeofRaft

/-!
# The full log of a node

A node keeps the end of its log in memory.  The full log, with the entries
that have been trimmed, is carried beside the state; it only grows, since no
section of a running process takes an entry back.
-/

/-- The view keeps the end of the full log in memory. -/
structure View.Holds
    (view : View)
    (full : List Nat) : Prop where
  sentinel : 0 < view.log.length
  tail : view.tail = full.length + 1
  memory : view.terms <:+ full
  last : full ≠ [] → view.terms ≠ []

/-- The full log after a step. -/
def Node.fullAfter
    (node : Node)
    (act : Act)
    (after : Node)
    (full : List Nat) :
    List Nat :=
  if act.isRestart then
    []
  else
    full ++ after.view.log.drop node.view.log.length

namespace View.Holds

variable {view after : View} {full : List Nat} {logIdx : Nat}

/-- The log in memory is the sentinel and the terms. -/
theorem log_length
    (holds : view.Holds full) :
    view.log.length = view.terms.length + 1 := by
  have sentinel := holds.sentinel
  rw [View.terms, List.length_drop]
  omega

/-- The log in memory does not begin below index zero. -/
theorem covered
    (holds : view.Holds full) :
    view.log.length ≤ view.tail := by
  rw [holds.log_length, holds.tail]
  exact Nat.succ_le_succ holds.memory.length_le

/-- The oldest index in memory, by the full log. -/
theorem oldest_eq
    (holds : view.Holds full) :
    view.oldest = full.length + 1 - view.terms.length := by
  rw [View.oldest_eq holds.covered, holds.log_length, holds.tail]
  rfl

theorem oldest_pos
    (holds : view.Holds full) :
    0 < view.oldest := by
  have length := holds.memory.length_le
  rw [holds.oldest_eq]
  omega

/-- The last entry is in memory. -/
theorem oldest_le
    (holds : view.Holds full)
    (nonempty : full ≠ []) :
    view.oldest ≤ full.length := by
  have some := List.length_pos_of_ne_nil (holds.last nonempty)
  rw [holds.oldest_eq]
  omega

/-- An entry in memory is the one of the full log. -/
theorem termAt
    (holds : view.Holds full)
    (notBelow : view.oldest ≤ logIdx)
    (inLog : logIdx < view.tail) :
    full[logIdx - 1]? = some (view.termAt logIdx) := by
  obtain ⟨trimmed, whole⟩ := holds.memory
  have oldest := holds.oldest_eq
  have tail := holds.tail
  have length : full.length = trimmed.length + view.terms.length := by
    rw [← whole, List.length_append]
  have position : logIdx - 1 - trimmed.length < view.terms.length := by
    omega
  have inMemory :
      view.terms[logIdx - 1 - trimmed.length]? =
        view.log[sub64 (logIdx + 1) view.oldest]? := by
    rw [View.terms, List.getElem?_drop, sub64_of_le (by omega)]
    congr 1
    omega
  have found := List.getElem?_eq_getElem position
  rw [← whole, List.getElem?_append_right (by omega), View.termAt,
    List.getD_eq_getElem?_getD, ← inMemory, found]
  rfl

/-- The last term in memory is the last one of the full log. -/
theorem lastTerm
    (holds : view.Holds full) :
    view.lastTerm = full.getLastD 0 := by
  obtain ⟨trimmed, whole⟩ := holds.memory
  rw [View.lastTerm, List.getLastD_eq_getLast?, List.getLastD_eq_getLast?,
    ← whole]
  by_cases none : view.terms = []
  · have empty : full = [] := by
      by_contra nonempty
      exact holds.last nonempty none
    rw [empty, none] at whole
    rw [none, whole]
  · rw [List.getLast?_append_of_ne_nil _ none]

/-- A log that grows at its end holds a longer full log. -/
theorem grown
    {added : List Nat}
    (holds : view.Holds full)
    (log : after.log = view.log ++ added)
    (tail : after.tail = view.tail + added.length) :
    after.Holds (full ++ added) := by
  have terms : after.terms = view.terms ++ added := by
    rw [View.terms, log, View.terms,
      List.drop_append_of_le_length holds.sentinel]
  refine ⟨?_, ?_, ?_, ?_⟩
  · rw [log, List.length_append]
    exact Nat.lt_of_lt_of_le holds.sentinel (Nat.le_add_right _ _)
  · rw [tail, holds.tail, List.length_append]
    omega
  · obtain ⟨trimmed, whole⟩ := holds.memory
    rw [terms, ← whole, List.append_assoc]
    exact List.suffix_append _ _
  · intro nonempty
    rw [terms]
    by_cases old : full = []
    · rw [old, List.nil_append] at nonempty
      exact List.append_ne_nil_of_right_ne_nil _ nonempty
    · exact List.append_ne_nil_of_left_ne_nil (holds.last old) _

/-- Trimming keeps the full log. -/
theorem trim
    {removed : Nat}
    (holds : view.Holds full)
    (trims : view.Trims removed) :
    (view.trim removed).Holds full := by
  have sentinel := holds.sentinel
  have terms : (view.trim removed).terms = view.terms.drop removed := by
    rw [View.terms, View.trim, View.terms, List.drop_drop,
      List.drop_append_of_le_length (by rw [List.length_take]; omega)]
    simp
  refine ⟨?_, holds.tail, ?_, ?_⟩
  · simp only [View.trim, List.length_append, List.length_take]
    omega
  · rw [terms]
    exact (List.drop_suffix _ _).trans holds.memory
  · intro nonempty
    have some := List.length_pos_of_ne_nil (holds.last nonempty)
    have tail := holds.tail
    have oldest := holds.oldest_eq
    have length := holds.memory.length_le
    rw [terms]
    apply List.ne_nil_of_length_pos
    rw [List.length_drop]
    unfold View.Trims at trims
    omega

end View.Holds

/-- A view whose `init_storage` has failed keeps no log. -/
structure View.Blank (view : View) : Prop where
  log : view.log = []
  tail : view.tail = 0

section

variable {mapped : Nat → Prop} {node after : Node} {act : Act}
variable {outputs : Outputs} {full : List Nat}

/-- Entries that are added extend the full log. -/
theorem Node.fullAfter_grown
    {added : List Nat}
    (stays : act.isRestart = false)
    (log : after.view.log = node.view.log ++ added) :
    node.fullAfter act after full = full ++ added := by
  rw [Node.fullAfter, stays, log, List.drop_left]
  rfl

/-- A log that stays leaves the full log as it is. -/
theorem Node.fullAfter_same
    (stays : act.isRestart = false)
    (log : after.view.log = node.view.log) :
    node.fullAfter act after full = full := by
  have grown : after.view.log = node.view.log ++ [] := by
    rw [log, List.append_nil]
  rw [Node.fullAfter_grown stays grown, List.append_nil]

/-- Trimming leaves the full log as it is. -/
theorem Node.fullAfter_trimmed
    {removed : Nat}
    (viewed : after.view = node.view.trim removed) :
    node.fullAfter .slotGc after full = full := by
  have short : after.view.log.length ≤ node.view.log.length := by
    rw [viewed]
    simp only [View.trim, List.length_append, List.length_take,
      List.length_drop]
    omega
  rw [Node.fullAfter, List.drop_eq_nil_of_le short]
  exact List.append_nil full

/-- A restart loses the full log. -/
theorem Node.fullAfter_restart
    (restarts : act.isRestart = true) :
    node.fullAfter act after full = [] :=
  if_pos restarts

/-- A step that is no restart extends the full log. -/
theorem Node.prefix_fullAfter
    (stays : act.isRestart = false) :
    full <+: node.fullAfter act after full := by
  rw [Node.fullAfter, stays]
  exact List.prefix_append _ _

/-- The memory keeps the end of the full log. -/
theorem Node.Step.holds
    (step : node.Step mapped act after outputs)
    (stays : act.isRestart = false)
    (holds : node.view.Holds full)
    (reach : node.HandlersReach)
    (unmoved : node.tailUnmoved act = true) :
    after.view.Holds (node.fullAfter act after full) := by
  have started : 0 < node.view.tail := by
    rw [holds.tail]
    exact Nat.succ_pos _
  by_cases keepsFront : act.keepsFront = true
  · obtain ⟨added, log, tail⟩ :=
      step.grown started reach unmoved keepsFront
    rw [Node.fullAfter_grown stays log]
    exact holds.grown log tail
  · cases act with
    | slotGc =>
        cases step with
        | collected trims =>
            rw [Node.fullAfter_trimmed rfl]
            exact holds.trim trims
    | restart kernel cacheLost =>
        cases stays
    | _ =>
        exact absurd rfl keepsFront

/-- A restart starts over, or fails. -/
theorem Node.Step.restart_holds
    (step : node.Step mapped act after outputs)
    (restarts : act.isRestart = true) :
    after.view.Holds [] ∨ after.view.Blank := by
  cases step with
  | restarted =>
      refine Or.inl ⟨Nat.one_pos, rfl, ?_, fun nonempty => absurd rfl nonempty⟩
      exact List.nil_suffix
  | restartThrew =>
      exact Or.inr ⟨rfl, rfl⟩
  | _ =>
      cases restarts

end

/-- Every slot record is of an entry in memory. -/
structure Server.SlotsHeld (server : Server) : Prop where
  inMemory :
    ∀ logIdx,
      logIdx ∈ server.ring.logSlotMap →
      server.view.oldest ≤ logIdx ∧ server.ring.gcUpTo < logIdx
  collected : server.ring.gcUpTo < server.view.tail

theorem slotsHeld_of_empty
    {server : Server}
    (empty : server.slotView = ⟨∅, 0⟩)
    (started : 0 < server.view.tail) :
    server.SlotsHeld := by
  have none : server.ring.logSlotMap = ∅ := congrArg SlotView.slots empty
  have zero : server.ring.gcUpTo = 0 := congrArg SlotView.gcUpTo empty
  refine ⟨?_, by rw [zero]; exact started⟩
  intro logIdx held
  rw [none] at held
  exact absurd held (AList.notMem_empty _)

/-- What a section does to the slot records, entry by entry. -/
theorem Server.SlotChange.inMemory
    {before after : Server}
    (change : before.SlotChange after)
    (held : before.SlotsHeld) :
    (∀ logIdx,
      logIdx ∈ after.ring.logSlotMap →
      (logIdx ∈ before.ring.logSlotMap ∨ before.view.tail ≤ logIdx) ∧
        after.ring.gcUpTo < logIdx) ∧
      after.ring.gcUpTo < before.view.tail := by
  have earlier := held.inMemory
  have collected := held.collected
  cases change with
  | kept same =>
      have slots : after.ring.logSlotMap = before.ring.logSlotMap :=
        congrArg SlotView.slots same
      have upTo : after.ring.gcUpTo = before.ring.gcUpTo :=
        congrArg SlotView.gcUpTo same
      rw [slots, upTo]
      exact ⟨fun logIdx here => ⟨Or.inl here, (earlier logIdx here).2⟩,
        collected⟩
  | gained records upTo =>
      refine ⟨fun logIdx here => ?_, Nat.lt_of_le_of_lt upTo collected⟩
      obtain ⟨record, found⟩ :=
        Option.isSome_iff_exists.mp (AList.lookup_isSome.mpr here)
      rcases records logIdx record found with ⟨old, inBefore, -⟩ | ⟨-, new⟩
      · have member : logIdx ∈ before.ring.logSlotMap := by
          rw [← AList.lookup_isSome, inBefore]
          rfl
        exact ⟨Or.inl member,
          Nat.lt_of_le_of_lt upTo (earlier logIdx member).2⟩
      · have beyond : before.view.tail ≤ logIdx := new
        exact ⟨Or.inr beyond, by omega⟩
  | collected gc =>
      have bound := gc.bound
      have sameTail : before.ring.tailLogIndex = before.view.tail := rfl
      refine ⟨fun logIdx here => ?_, by omega⟩
      obtain ⟨record, found⟩ :=
        Option.isSome_iff_exists.mp (AList.lookup_isSome.mpr here)
      obtain ⟨inBefore, above⟩ := gc.records logIdx record found
      have member : logIdx ∈ before.ring.logSlotMap := by
        rw [← AList.lookup_isSome, inBefore]
        rfl
      exact ⟨Or.inl member, above (earlier logIdx member).2⟩

/-- A step keeps the records of entries in memory. -/
theorem Process.step_slotsHeld
    {proc : Process}
    {outcomes : IoOutcomes}
    {act : Act}
    {result : Process × Outputs}
    {full : List Nat}
    (wellformed : proc.Wellformed)
    (holds : proc.node.view.Holds full)
    (reach : proc.node.HandlersReach)
    (unmoved : proc.node.tailUnmoved act = true)
    (stays : act.isRestart = false)
    (held : proc.server.SlotsHeld)
    (stepped : proc.step outcomes act = some result) :
    result.1.server.SlotsHeld := by
  have does := Process.step_does wellformed stepped
  have sentinel : 0 < proc.server.view.log.length := holds.sentinel
  have covered : proc.server.view.log.length ≤ proc.server.view.tail :=
    holds.covered
  have oldestBound : proc.server.view.oldest ≤ proc.server.view.tail := by
    rw [View.oldest_eq covered]
    exact Nat.sub_le _ _
  have tails : proc.server.view.tail ≤ result.1.server.view.tail := by
    have longer : full.length ≤
        (proc.node.fullAfter act result.1.node full).length :=
      (Node.prefix_fullAfter stays).length_le
    have tail : proc.server.view.tail = full.length + 1 := holds.tail
    have tailAfter : result.1.server.view.tail =
        (proc.node.fullAfter act result.1.node full).length + 1 :=
      (does.holds stays holds reach unmoved).tail
    omega
  have change := Process.step_slots (List.ne_nil_of_length_pos sentinel)
    stepped (Act.not_restart stays)
  obtain ⟨records, upTo⟩ := change.inMemory held
  refine ⟨fun logIdx here => ?_, Nat.lt_of_lt_of_le upTo tails⟩
  obtain ⟨origin, above⟩ := records logIdx here
  refine ⟨?_, above⟩
  have oldest : result.1.server.view.oldest ≤
      max proc.server.view.oldest result.1.server.ring.gcUpTo := by
    by_cases collects : act = .slotGc
    · subst collects
      exact (Process.step_collected stepped).oldest (by omega)
    · have keepsFront : act.keepsFront = true := by
        cases act with
        | slotGc =>
            exact absurd rfl collects
        | restart _ _ =>
            cases stays
        | _ =>
            rfl
      have grown := does.grown (Nat.lt_of_lt_of_le sentinel covered) reach
        unmoved keepsFront
      have same : result.1.server.view.oldest = proc.server.view.oldest :=
        grown.oldest sentinel covered
      rw [same]
      exact le_max_left _ _
  rcases origin with before | new
  · have inMemory := (held.inMemory logIdx before).1
    omega
  · omega

end NvmeofRaft
