import NvmeofRaft.EntryStep

namespace NvmeofRaft

/-!
# Entries by absolute index

The entry at an absolute log index, and how appending, trimming and changing
one entry look through it, for a log whose oldest index does not wrap.
-/

namespace EntryView

/-- The sentinel is there and the oldest index does not wrap. -/
structure Covered (view : EntryView) : Prop where
  sentinel : 0 < view.log.length
  covered : view.log.length ≤ view.tail + 1

/-- The oldest index of a covered log. -/
theorem Covered.oldest_eq
    {view : EntryView}
    (covered : view.Covered) :
    view.oldest = view.tail - (view.log.length - 1) := by
  have bound := covered.covered
  exact sub64_of_le (by omega)

/-- The entry at an absolute index, while it is in memory. -/
def entryAt?
    (view : EntryView)
    (logIdx : Nat) :
    Option Entry :=
  if view.oldest ≤ logIdx then
    view.log[logIdx + 1 - view.oldest]?
  else
    none

/-- Every index from the oldest one up to the tail is in memory. -/
theorem Covered.position_lt
    {view : EntryView}
    {logIdx : Nat}
    (covered : view.Covered)
    (inMemory : view.oldest ≤ logIdx)
    (below : logIdx < view.tail) :
    logIdx + 1 - view.oldest < view.log.length := by
  have sentinel := covered.sentinel
  have oldest := covered.oldest_eq
  have bound := covered.covered
  omega

/-- An entry in memory is not older than the oldest one. -/
theorem oldest_le_of_entry
    {view : EntryView}
    {logIdx : Nat}
    {entry : Entry}
    (found : view.entryAt? logIdx = some entry) :
    view.oldest ≤ logIdx := by
  by_contra outside
  rw [EntryView.entryAt?, if_neg outside] at found
  cases found

/-- A covered log stays covered when entries are pushed. -/
theorem Covered.push
    {view : EntryView}
    (covered : view.Covered)
    (entries : List Entry) :
    (view.push entries).Covered := by
  have sentinel := covered.sentinel
  have bound := covered.covered
  refine ⟨?_, ?_⟩
  · simp only [EntryView.push, List.length_append]
    omega
  · simp only [EntryView.push, List.length_append]
    omega

theorem Covered.push_oldest
    {view : EntryView}
    (covered : view.Covered)
    (entries : List Entry) :
    (view.push entries).oldest = view.oldest := by
  have sentinel := covered.sentinel
  have bound := covered.covered
  rw [covered.oldest_eq, (covered.push entries).oldest_eq]
  simp only [EntryView.push, List.length_append]
  omega

/-- New entries stand at the indices from the old tail on. -/
theorem Covered.push_entry
    {view : EntryView}
    (covered : view.Covered)
    (entries : List Entry)
    (logIdx : Nat) :
    (view.push entries).entryAt? logIdx =
      if logIdx < view.tail then
        view.entryAt? logIdx
      else
        entries[logIdx - view.tail]? := by
  have sentinel := covered.sentinel
  have bound := covered.covered
  have oldest := covered.oldest_eq
  rw [EntryView.entryAt?, covered.push_oldest entries]
  by_cases below : logIdx < view.tail
  · rw [if_pos below, EntryView.entryAt?]
    by_cases inMemory : view.oldest ≤ logIdx
    · rw [if_pos inMemory, if_pos inMemory]
      exact List.getElem?_append_left (covered.position_lt inMemory below)
    · rw [if_neg inMemory, if_neg inMemory]
  · rw [if_neg below, if_pos (by omega)]
    have position :
        logIdx + 1 - view.oldest - view.log.length = logIdx - view.tail := by
      omega
    rw [← position]
    exact List.getElem?_append_right (by omega)

/-- The view after the oldest entries have been trimmed. -/
def trim
    (view : EntryView)
    (removed : Nat) :
    EntryView :=
  { view with log := view.log.take 1 ++ view.log.drop (1 + removed) }

/-- The log behind the trimmed entries. -/
theorem Covered.trim_drop
    {view : EntryView}
    (covered : view.Covered)
    (removed : Nat)
    {count : Nat}
    (positive : 0 < count) :
    (view.trim removed).log.drop count =
      view.log.drop (count + removed) := by
  have sentinel := covered.sentinel
  have front : (view.log.take 1).length = 1 := by
    rw [List.length_take]
    omega
  show (view.log.take 1 ++ view.log.drop (1 + removed)).drop count = _
  rw [List.drop_append, front,
    List.drop_of_length_le (by rw [front]; exact positive), List.nil_append,
    List.drop_drop]
  congr 1
  omega

section

variable {view : EntryView} {removed : Nat}
variable (covered : view.Covered)
variable (fits : removed ≤ view.log.length - 1)

include covered fits

theorem Covered.trim_length :
    (view.trim removed).log.length = view.log.length - removed := by
  have sentinel := covered.sentinel
  simp only [EntryView.trim, List.length_append, List.length_take,
    List.length_drop]
  omega

theorem Covered.trim :
    (view.trim removed).Covered := by
  have sentinel := covered.sentinel
  have bound := covered.covered
  refine ⟨?_, ?_⟩
  · rw [covered.trim_length fits]
    omega
  · rw [covered.trim_length fits]
    exact (Nat.sub_le _ _).trans bound

/-- Trimming moves the oldest index by as many entries. -/
theorem Covered.trim_oldest :
    (view.trim removed).oldest = view.oldest + removed := by
  have sentinel := covered.sentinel
  have bound := covered.covered
  have sameTail : (view.trim removed).tail = view.tail := rfl
  rw [(covered.trim fits).oldest_eq, covered.trim_length fits,
    covered.oldest_eq, sameTail]
  omega

/-- What is left keeps its index. -/
theorem Covered.trim_entry
    (logIdx : Nat) :
    (view.trim removed).entryAt? logIdx =
      if view.oldest + removed ≤ logIdx then
        view.entryAt? logIdx
      else
        none := by
  rw [EntryView.entryAt?, covered.trim_oldest fits]
  split
  · rename_i left
    have sameTail := covered.trim_drop removed
      (Nat.sub_pos_of_lt (Nat.lt_succ_of_le left))
    have position :
        logIdx + 1 - (view.oldest + removed) + removed =
          logIdx + 1 - view.oldest := by
      omega
    rw [position] at sameTail
    have head := congrArg List.head? sameTail
    rw [List.head?_drop, List.head?_drop] at head
    rw [EntryView.entryAt?,
      if_pos ((Nat.le_add_right _ removed).trans left)]
    exact head
  · rfl

end

/-- A change of the entry at one index. -/
def change
    (view : EntryView)
    (logIdx : Nat)
    (update : Entry → Entry) :
    EntryView :=
  { view with log := view.log.modify (logIdx + 1 - view.oldest) update }

theorem change_oldest
    (view : EntryView)
    (logIdx : Nat)
    (update : Entry → Entry) :
    (view.change logIdx update).oldest = view.oldest := by
  show sub64 view.tail ((view.log.modify _ _).length - 1) = _
  rw [List.length_modify]
  rfl

theorem Covered.change
    {view : EntryView}
    (covered : view.Covered)
    (logIdx : Nat)
    (update : Entry → Entry) :
    (view.change logIdx update).Covered := by
  refine ⟨?_, ?_⟩
  · show 0 < (view.log.modify _ _).length
    rw [List.length_modify]
    exact covered.sentinel
  · show (view.log.modify _ _).length ≤ view.tail + 1
    rw [List.length_modify]
    exact covered.covered

/-- The other indices keep their entries. -/
theorem change_entry
    {view : EntryView}
    {logIdx : Nat}
    (inMemory : view.oldest ≤ logIdx)
    (update : Entry → Entry)
    (other : Nat) :
    (view.change logIdx update).entryAt? other =
      if other = logIdx then
        (view.entryAt? other).map update
      else
        view.entryAt? other := by
  rw [EntryView.entryAt?, change_oldest, EntryView.entryAt?]
  by_cases held : view.oldest ≤ other
  · rw [if_pos held, if_pos held]
    show (view.log.modify _ _)[_]? = _
    rw [List.getElem?_modify]
    by_cases same : other = logIdx
    · subst same
      simp
    · rw [if_neg same]
      have apart :
          ¬ logIdx + 1 - view.oldest = other + 1 - view.oldest := by
        omega
      simp [apart]
  · rw [if_neg held, if_neg held]
    split <;> rfl

end EntryView

/-- What is trimmed has been matched by all members and applied. -/
theorem collectGarbage_trims
    (server : Server) :
    server.collectGarbage.entryView = server.entryView ∨
      ∃ removed,
        removed ≤ server.entryView.log.length - 1 ∧
          server.entryView.oldest + removed ≤
              min server.minMatch server.entryView.applied ∧
            server.collectGarbage.entryView =
              server.entryView.trim removed := by
  unfold Server.collectGarbage
  split
  · have freed :
        ({ server with
          ring := server.ring.freeSlots server.minMatch } :
            Server).entryView = server.entryView := by
      obtain ⟨headSlot, same⟩ := freeSlots_only server.ring server.minMatch
      rw [same]
      rfl
    generalize ({ server with
      ring := server.ring.freeSlots server.minMatch } : Server) =
        collected at freed
    rw [← freed]
    unfold trimLogLocked
    dsimp only
    split
    · exact Or.inl rfl
    · rename_i trims
      refine Or.inr ⟨min (min server.minMatch collected.raft.lastApplied -
        collected.oldestLogIndex) (collected.raft.log.length - 1),
        min_le_right _ _, ?_, rfl⟩
      show collected.oldestLogIndex + _ ≤
        min server.minMatch collected.raft.lastApplied
      omega
  · exact Or.inl rfl

theorem collectGarbage_entryView
    (server : Server) :
    server.collectGarbage.entryView = server.entryView ∨
      ∃ removed,
        removed ≤ server.entryView.log.length - 1 ∧
          server.entryView.oldest + removed ≤ server.entryView.applied ∧
            server.collectGarbage.entryView =
              server.entryView.trim removed := by
  rcases collectGarbage_trims server with
    same | ⟨removed, fits, below, trimmed⟩
  · exact Or.inl same
  · exact Or.inr
      ⟨removed, fits, below.trans (min_le_right _ _), trimmed⟩

/-- One iteration of `apply_pending` changes the entry it passes on. -/
theorem applyEntry_log
    {server : Server}
    (inMemory : server.entryView.oldest ≤ server.raft.lastApplied) :
    server.applyEntry.raft.log =
      (server.entryView.change server.raft.lastApplied Entry.release).log := by
  have slice :
      server.logSlice server.raft.lastApplied =
        server.raft.lastApplied + 1 - server.entryView.oldest :=
    sub64_of_le (Nat.le_succ_of_le inMemory)
  show server.raft.log.modify (server.logSlice _) _ = _
  rw [slice]
  rfl

end NvmeofRaft
