import NvmeofRaft.EntryIndex

namespace NvmeofRaft

/-!
# Trimming keeps absolute indices

`trim_log_locked` takes entries from the front of the vector, and the length
of the vector is all that absolute indices are computed from.  What is taken
is what lies below both bounds, so the last entry always stays.
-/

/-- The absolute index of an entry in memory. -/
def Server.InMemory
    (server : Server)
    (logIdx : Nat) : Prop :=
  server.oldestLogIndex ≤ logIdx ∧ logIdx < server.ring.tailLogIndex

/-- The entry that `log_slice` designates. -/
def Server.designated
    (server : Server)
    (logIdx : Nat) :
    Option Entry :=
  server.raft.log[server.logSlice logIdx]?

/-- The sentinel, at least one entry, and an oldest index above zero. -/
structure Server.Filled (server : Server) : Prop where
  filled : 2 ≤ server.raft.log.length
  behind : server.raft.log.length - 1 < server.ring.tailLogIndex

/-- What a server looks like after its log has been trimmed. -/
structure Server.TrimmedTo
    (before : Server)
    (minMatch : Nat)
    (after : Server) : Prop where
  sentinel : after.raft.log.head? = before.raft.log.head?
  tail : after.ring.tailLogIndex = before.ring.tailLogIndex
  oldest :
    after.oldestLogIndex = before.oldestLogIndex ∨
      after.oldestLogIndex = min minMatch before.raft.lastApplied
  raised : before.oldestLogIndex ≤ after.oldestLogIndex
  entries : after.raft.log.tail <:+ before.raft.log.tail
  inRange :
    ∀ logIdx, after.InMemory logIdx →
      1 ≤ after.logSlice logIdx ∧
        after.logSlice logIdx < after.raft.log.length
  position :
    ∀ logIdx, after.InMemory logIdx →
      after.raft.log.length - after.logSlice logIdx =
        before.raft.log.length - before.logSlice logIdx
  designates :
    ∀ logIdx, after.InMemory logIdx →
      after.designated logIdx = before.designated logIdx
  last : after.raft.log.getLast? = before.raft.log.getLast?
  lastTerm : after.lastLogTerm = before.lastLogTerm
  matched : before.InMemory minMatch → after.InMemory minMatch
  applied :
    before.InMemory before.raft.lastApplied →
      after.InMemory before.raft.lastApplied

theorem Server.Filled.covered
    {server : Server}
    (filled : server.Filled) :
    server.entryView.Covered where
  sentinel := Nat.lt_of_succ_lt filled.filled
  covered := by
    have behind := filled.behind
    show server.raft.log.length ≤ server.ring.tailLogIndex + 1
    omega

theorem Server.Filled.oldest_eq
    {server : Server}
    (filled : server.Filled) :
    server.oldestLogIndex =
      server.ring.tailLogIndex - (server.raft.log.length - 1) :=
  filled.covered.oldest_eq

theorem Server.logSlice_of_le
    {server : Server}
    {logIdx : Nat}
    (held : server.oldestLogIndex ≤ logIdx) :
    server.logSlice logIdx = logIdx + 1 - server.oldestLogIndex :=
  sub64_of_le (Nat.le_succ_of_le held)

theorem Server.designated_eq
    {server : Server}
    {logIdx : Nat}
    (held : server.oldestLogIndex ≤ logIdx) :
    server.designated logIdx = server.entryView.entryAt? logIdx := by
  rw [Server.designated, Server.logSlice_of_le held]
  exact (if_pos held).symm

/-- The erase of `trim_log_locked`. -/
def Server.eraseFront
    (server : Server)
    (removed : Nat) :
    Server :=
  server.mapRaft fun raft =>
    { raft with log := raft.log.take 1 ++ raft.log.drop (1 + removed) }

/-- Trimming does nothing, or erases everything below both bounds. -/
theorem trimLogLocked_cases
    {server : Server}
    {minMatch : Nat}
    (filled : server.Filled)
    (bound : minMatch ≤ server.ring.tailLogIndex - 1) :
    trimLogLocked minMatch server = server ∨
      ∃ removed,
        removed + 2 ≤ server.raft.log.length ∧
          server.oldestLogIndex + removed =
            min minMatch server.raft.lastApplied ∧
          trimLogLocked minMatch server = server.eraseFront removed := by
  have size := filled.filled
  have behind := filled.behind
  have oldest := filled.oldest_eq
  unfold trimLogLocked
  dsimp only
  split
  · exact Or.inl rfl
  · -- The own last index bounds the count, so the cap of the source is idle.
    have idle :
        min (min minMatch server.raft.lastApplied - server.oldestLogIndex)
            (server.raft.log.length - 1) =
          min minMatch server.raft.lastApplied - server.oldestLogIndex := by
      omega
    rw [idle]
    exact Or.inr ⟨_, by omega, by omega, rfl⟩

theorem Server.eraseFront_tail
    {server : Server}
    (filled : server.Filled)
    (removed : Nat) :
    (server.eraseFront removed).raft.log.tail =
      server.raft.log.tail.drop removed := by
  have behindSentinel := filled.covered.trim_drop removed Nat.one_pos
  rw [← List.drop_one, ← List.drop_one, List.drop_drop]
  exact behindSentinel

theorem Server.eraseFront_last
    {server : Server}
    {removed : Nat}
    (fits : removed + 2 ≤ server.raft.log.length) :
    (server.eraseFront removed).raft.log.getLast? =
      server.raft.log.getLast? := by
  have left : server.raft.log.drop (1 + removed) ≠ [] := by
    rw [Ne, List.drop_eq_nil_iff]
    omega
  show (server.raft.log.take 1 ++
    server.raft.log.drop (1 + removed)).getLast? = _
  rw [List.getLast?_append_of_ne_nil _ left, List.getLast?_drop,
    if_neg (by omega)]

section

variable {server : Server} {removed : Nat}
variable (filled : server.Filled)
variable (fits : removed + 2 ≤ server.raft.log.length)

include filled fits

theorem Server.Filled.eraseFront_length :
    (server.eraseFront removed).raft.log.length =
      server.raft.log.length - removed := by
  have within : removed ≤ server.entryView.log.length - 1 := by
    show removed ≤ server.raft.log.length - 1
    omega
  exact filled.covered.trim_length within

theorem Server.Filled.eraseFront_oldest :
    (server.eraseFront removed).oldestLogIndex =
      server.oldestLogIndex + removed := by
  have within : removed ≤ server.entryView.log.length - 1 := by
    show removed ≤ server.raft.log.length - 1
    omega
  exact filled.covered.trim_oldest within

/-- An erase that leaves an entry leaves a log that can be trimmed again. -/
theorem Server.Filled.eraseFront :
    (server.eraseFront removed).Filled := by
  have length := filled.eraseFront_length fits
  have behind := filled.behind
  refine ⟨by omega, ?_⟩
  show (server.eraseFront removed).raft.log.length - 1 <
    server.ring.tailLogIndex
  omega

theorem Server.Filled.eraseFront_designates
    {logIdx : Nat}
    (held : (server.eraseFront removed).oldestLogIndex ≤ logIdx) :
    (server.eraseFront removed).designated logIdx =
      server.designated logIdx := by
  have within : removed ≤ server.entryView.log.length - 1 := by
    show removed ≤ server.raft.log.length - 1
    omega
  have oldest := filled.eraseFront_oldest fits
  have left : server.entryView.oldest + removed ≤ logIdx := oldest ▸ held
  have entry := filled.covered.trim_entry within logIdx
  rw [if_pos left] at entry
  rw [Server.designated_eq held, Server.designated_eq (by omega)]
  exact entry

end

theorem Server.Filled.inRange
    {server : Server}
    {logIdx : Nat}
    (filled : server.Filled)
    (held : server.InMemory logIdx) :
    1 ≤ server.logSlice logIdx ∧
      server.logSlice logIdx < server.raft.log.length := by
  obtain ⟨lower, upper⟩ := held
  have oldest := filled.oldest_eq
  have size := filled.filled
  rw [Server.logSlice_of_le lower]
  omega

theorem Server.Filled.trimmedTo_self
    {server : Server}
    (filled : server.Filled)
    (minMatch : Nat) :
    server.TrimmedTo minMatch server where
  sentinel := rfl
  tail := rfl
  oldest := Or.inl rfl
  raised := le_refl _
  entries := List.suffix_refl _
  inRange := fun _ held => filled.inRange held
  position := fun _ _ => rfl
  designates := fun _ _ => rfl
  last := rfl
  lastTerm := rfl
  matched := id
  applied := id

theorem Server.Filled.trimmedTo_eraseFront
    {server : Server}
    {removed minMatch : Nat}
    (filled : server.Filled)
    (fits : removed + 2 ≤ server.raft.log.length)
    (upTo :
      server.oldestLogIndex + removed =
        min minMatch server.raft.lastApplied) :
    server.TrimmedTo minMatch (server.eraseFront removed) := by
  have length := filled.eraseFront_length fits
  have oldest := filled.eraseFront_oldest fits
  have last := Server.eraseFront_last fits
  refine {
    sentinel := ?_
    tail := rfl
    oldest := Or.inr (oldest.trans upTo)
    raised := Nat.le.intro oldest.symm
    entries := ?_
    inRange := fun _ held => (filled.eraseFront fits).inRange held
    position := ?_
    designates := fun _ held => filled.eraseFront_designates fits held.1
    last := last
    lastTerm := ?_
    matched := ?_
    applied := ?_ }
  · have size := filled.filled
    cases log : server.raft.log with
    | nil =>
        rw [log] at size
        cases size
    | cons sentinel entries =>
        show (server.raft.log.take 1 ++ _).head? = _
        rw [log]
        rfl
  · rw [Server.eraseFront_tail filled]
    exact List.drop_suffix _ _
  · rintro logIdx ⟨lower, upper⟩
    rw [Server.logSlice_of_le lower, Server.logSlice_of_le (by omega)]
    omega
  · rw [Server.lastLogTerm, Server.lastLogTerm, if_pos (by omega),
      if_pos (by omega), List.getLastD_eq_getLast?, last,
      List.getLastD_eq_getLast?]
  · rintro ⟨-, upper⟩
    exact ⟨by omega, upper⟩
  · rintro ⟨-, upper⟩
    exact ⟨by omega, upper⟩

theorem Server.Filled.trims
    {server : Server}
    {minMatch : Nat}
    (filled : server.Filled)
    (bound : minMatch ≤ server.ring.tailLogIndex - 1) :
    server.TrimmedTo minMatch (trimLogLocked minMatch server) ∧
      (trimLogLocked minMatch server).Filled := by
  rcases trimLogLocked_cases filled bound with
    same | ⟨removed, fits, upTo, erased⟩
  · rw [same]
    exact ⟨filled.trimmedTo_self minMatch, filled⟩
  · rw [erased]
    exact ⟨filled.trimmedTo_eraseFront fits upTo, filled.eraseFront fits⟩

/--
Trimming keeps the sentinel, the tail, the last entry and both bounding
entries, and every index that is still in memory designates its entry.
-/
theorem trimLogLocked_keepsIndexing
    {server : Server}
    {minMatch : Nat}
    (filled : 2 ≤ server.raft.log.length)
    (behind : server.raft.log.length - 1 < server.ring.tailLogIndex)
    (bound : minMatch ≤ server.ring.tailLogIndex - 1) :
    server.TrimmedTo minMatch (trimLogLocked minMatch server) :=
  (Server.Filled.trims ⟨filled, behind⟩ bound).1

/-- Five entries from index 3 on, of which those up to index 5 are applied. -/
def fiveEntryServer : Server where
  raft := {
    id := 1
    log := [0, 1, 1, 2, 2, 3].map fun term => { term }
    lastApplied := 6
    cluster := [{ id := 1 }, { id := 2 }]
    clusterIndex := 0 }
  ring := { tailLogIndex := 8, logTrimThreshold := 2 }

/-- With a peer at index 5 the two entries in front of it are taken. -/
theorem fiveEntryServer_trims :
    fiveEntryServer.oldestLogIndex = 3 ∧
      (trimLogLocked 5 fiveEntryServer).oldestLogIndex = 5 ∧
      fiveEntryServer.TrimmedTo 5 (trimLogLocked 5 fiveEntryServer) :=
  ⟨by decide, by decide,
    trimLogLocked_keepsIndexing (by decide) (by decide) (by decide)⟩

/-- However often a log is trimmed, an index in memory keeps its entry. -/
theorem Server.Filled.trims_often
    (minMatches : List Nat)
    {server : Server}
    (filled : server.Filled)
    (bounds :
      ∀ minMatch ∈ minMatches, minMatch ≤ server.ring.tailLogIndex - 1) :
    let after :=
      minMatches.foldl (fun server minMatch => trimLogLocked minMatch server)
        server
    after.Filled ∧
      after.ring.tailLogIndex = server.ring.tailLogIndex ∧
      server.oldestLogIndex ≤ after.oldestLogIndex ∧
      ∀ logIdx, after.InMemory logIdx →
        after.designated logIdx = server.designated logIdx := by
  induction minMatches generalizing server with
  | nil =>
      exact ⟨filled, rfl, le_refl _, fun _ _ => rfl⟩
  | cons minMatch rest inductionHypothesis =>
      obtain ⟨trimmed, left⟩ := filled.trims (bounds minMatch (by simp))
      obtain ⟨filledAfter, tail, raised, designates⟩ :=
        inductionHypothesis left fun other held => by
          rw [trimmed.tail]
          exact bounds other (List.mem_cons_of_mem _ held)
      refine ⟨filledAfter, tail.trans trimmed.tail,
        trimmed.raised.trans raised, fun logIdx held => ?_⟩
      have between : (trimLogLocked minMatch server).InMemory logIdx :=
        ⟨raised.trans held.1, tail ▸ held.2⟩
      exact (designates logIdx held).trans (trimmed.designates logIdx between)

end NvmeofRaft
