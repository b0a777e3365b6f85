import NvmeofRaft.LogEffect

namespace NvmeofRaft

/-!
# Data-bearing rounds

The `inflight` flag of a member against the workers that have a data-bearing
request to it under way.  The flag is set in Lock B and cleared in one later
section, so the two are compared over all steps of a node, including those of
workers that carry nothing and restarts.
-/

/-- The `inflight` flags, in cluster order. -/
def Server.inflights (server : Server) : List Bool :=
  server.raft.cluster.map ClusterMember.inflight

/-- The request of a worker between Lock B and the end of its post-RPC section. -/
def Thread.call? : Thread → Option (Nat × AppendCall)
  | .leaderCopy fi call => some (fi, call)
  | .appendCall fi call => some (fi, call)
  | _ => none

/-- The request is for `fi` and has entries. -/
def Thread.carries
    (fi : Nat)
    (thread : Thread) :
    Bool :=
  thread.call?.any fun call =>
    decide (call.1 = fi) && decide (0 < call.2.req.numEntries)

/-- The number of workers with a data-bearing request to `fi` under way. -/
def Process.rounds
    (proc : Process)
    (fi : Nat) :
    Nat :=
  proc.threads.countP (Thread.carries fi)

section

variable (server : Server)

theorem inflights_of_besidesLog
    {first second : Server}
    (same : first.besidesLog = second.besidesLog) :
    first.inflights = second.inflights := by
  show first.besidesLog.inflights = second.besidesLog.inflights
  rw [same]

theorem mapMember_inflights
    {index : Nat}
    {change : ClusterMember → ClusterMember}
    (same : ∀ member, (change member).inflight = member.inflight) :
    (server.mapMember index change).inflights = server.inflights :=
  map_modify_same _ _ same

theorem persistCircular_inflights
    (writeLog : Bool)
    (nNewEntries : Nat) :
    Frames Server.inflights (persistCircular writeLog nNewEntries) :=
  (persistCircular_frames writeLog nNewEntries).coarsen Server.inflights
    fun _ => rfl

theorem setVotedFor_inflights
    (vote : Nat) :
    (server.setVotedFor vote).inflights = server.inflights :=
  mapMember_inflights server fun _ => rfl

theorem resetProgress_inflights :
    server.resetProgress.inflights = server.inflights := by
  simp only [Server.resetProgress, Server.mapRaft, Server.inflights,
    List.map_map, Function.comp_def]

end

theorem inflights_undisturbed :
    Undisturbed Server.inflights where
  header := persistCircular_inflights false 0
  demote _ _ := setVotedFor_inflights _ 0
  startElection _ := map_mapIdx_same _ fun _ _ => rfl
  setVotedFor := setVotedFor_inflights
  recordVote server _ := mapMember_inflights server fun _ => rfl
  stepDown server req :=
    inflights_of_besidesLog (stepDown_besidesLog server req)
  tailSlot _ _ := rfl
  buildLog server req newTail skipEntries :=
    inflights_of_besidesLog
      (buildLog_besidesLog server req newTail skipEntries)
  followCommit _ _ := rfl
  commitTo server majorityIdx :=
    inflights_of_besidesLog (commitTo_besidesLog server majorityIdx)
  applyCommitted server :=
    inflights_of_besidesLog (applyCommitted_besidesLog server)

theorem becomeLeader_inflights
    (load : Nat → Option (List UInt8)) :
    Frames Server.inflights (becomeLeader load) := by
  refine Frames.bind Frames.get fun server => Frames.ite ?_ (Frames.pure _)
  refine Frames.bind (Frames.modifyState fun server => ?_) fun _ =>
    Frames.bind (persistCircular_inflights _ _) fun _ =>
      Frames.modifyState resetProgress_inflights
  exact inflights_of_besidesLog (promote_besidesLog server load)

theorem applyCommands_inflights
    (sink : Nat)
    (commands : List (List UInt8)) :
    Frames Server.inflights (applyCommands sink commands) := by
  refine Frames.bind Frames.get fun server =>
    Frames.ite (Frames.pure _) (Frames.ite (Frames.pure _)
      (Frames.ite (Frames.pure _) ?_))
  refine Frames.bind (Frames.modifyState fun server => ?_) fun _ =>
    Frames.tryCatch
      (Frames.bind (persistCircular_inflights _ _) fun _ => Frames.pure _)
      fun exn => Frames.bind (Frames.modifyState fun server => ?_) fun _ =>
        Frames.pure _
  · exact inflights_of_besidesLog
      (appendCommands_besidesLog sink commands server)
  · exact inflights_of_besidesLog (popEntries_besidesLog _ server)

/-- Only the append workers change the flags. -/
theorem body_inflights
    {proc : Process}
    {act : Act}
    (other : act.isWorker = false) :
    Frames Server.inflights (proc.body act) := by
  by_cases quiet : proc.Quiet act
  · exact body_undisturbed inflights_undisturbed quiet other
  · rcases body_loud quiet with ⟨load, same⟩ | ⟨sink, commands, same⟩ | same
    · rw [same]
      exact becomeLeader_inflights load
    · rw [same]
      exact (applyCommands_inflights sink commands).discard
    · rw [same]
      exact Frames.modifyState fun server =>
        inflights_of_besidesLog (collectGarbage_besidesLog server)

theorem clampNext_inflights
    (server : Server)
    (fi : Nat) :
    (server.clampNext fi).inflights = server.inflights :=
  mapMember_inflights server fun _ => rfl

theorem setInflight_inflights
    (server : Server)
    (fi : Nat)
    (inflight : Bool) :
    (server.setInflight fi inflight).inflights =
      server.inflights.set fi inflight :=
  map_modify_set _ _ fun _ => rfl

theorem member_inflight
    (server : Server)
    (fi : Nat) :
    (server.member fi).inflight = server.inflights.getD fi false := by
  simp only [Server.member, Server.inflights, List.getD_eq_getElem?_getD,
    List.getElem?_map]
  cases server.raft.cluster[fi]? <;> rfl

/-- Lock B sets the flag for a request with entries, and finds it clear. -/
theorem appendEntriesSend_inflights
    (fi : Nat)
    {server : Server}
    (positive : server.SlotsPositive) :
    wp (appendEntriesSend fi)
      (fun built final =>
        match built with
        | none => final.inflights = server.inflights
        | some call =>
            if call.hasEntries then
              server.inflights.getD fi false = false ∧
                final.inflights = server.inflights.set fi true
            else
              final.inflights = server.inflights)
      (fun _ final => final.inflights = server.inflights) server := by
  have clamped := clampNext_inflights server fi
  have samePositive : (server.clampNext fi).SlotsPositive := positive
  simp only [appendEntriesSend, wp_bind, wp_modify, wp_get, wp_ite, wp_pure,
    member_inflight, clamped]
  split
  · trivial
  · rename_i notHeld
    refine wp_mono (planRound_spec samePositive ?_) ?_ ?_
    · split <;> omega
    · rintro plan final ⟨rfl, sound⟩
      by_cases entries : 0 < plan.lenEntries
      · have clear : server.inflights.getD fi false = false := by
          refine Bool.eq_false_iff.mpr fun inflight => ?_
          exact notHeld ⟨(sound.inLog entries).1, inflight⟩
        simp only [entries, if_true, AppendCall.hasEntries, decide_true,
          setInflight_inflights, clamped]
        exact ⟨clear, trivial⟩
      · simp only [entries, if_false, AppendCall.hasEntries, decide_false,
          Bool.false_eq_true, clamped]
    · rintro _ final rfl
      exact clamped

/-- Lock C clears the flag that Lock B has set, whatever the answer. -/
theorem bookAnswer_inflights
    (server : Server)
    (fi : Nat)
    (call : AppendCall)
    (answer : Option AppendEntriesResponse) :
    (server.bookAnswer fi call answer).inflights =
      if call.hasEntries then server.inflights.set fi false
      else server.inflights := by
  unfold Server.bookAnswer
  generalize landed :
    (if call.hasEntries then server.setInflight fi false else server) = booked
  have cleared :
      booked.inflights =
        if call.hasEntries then server.inflights.set fi false
        else server.inflights := by
    rw [← landed]
    split
    · exact setInflight_inflights server fi false
    · rfl
  rw [← cleared]
  cases answer with
  | none =>
      rfl
  | some rsp =>
      dsimp only
      split_ifs
      · rfl
      · rfl
      · exact mapMember_inflights booked fun _ => rfl
      · refine mapMember_inflights booked fun member => ?_
        split <;> rfl

section

variable {α : Type} {list : List α} {index : Nat} {old : α}

theorem countP_set_add
    (holds : α → Bool)
    (found : list[index]? = some old)
    (new : α) :
    (list.set index new).countP holds + (holds old).toNat =
      list.countP holds + (holds new).toNat := by
  obtain ⟨inside, rfl⟩ := List.getElem?_eq_some_iff.mp found
  have counted : (if holds list[index] then 1 else 0) ≤ list.countP holds :=
    List.boole_getElem_le_countP inside
  rw [List.countP_set inside]
  generalize list.countP holds = total at counted ⊢
  generalize holds list[index] = before at counted ⊢
  cases before <;> cases holds new <;>
    simp only [↓reduceIte, Bool.false_eq_true, Bool.toNat_true,
      Bool.toNat_false] at counted ⊢ <;> omega

theorem countP_eraseIdx_add
    (holds : α → Bool)
    (found : list[index]? = some old) :
    (list.eraseIdx index).countP holds + (holds old).toNat =
      list.countP holds := by
  obtain ⟨inside, rfl⟩ := List.getElem?_eq_some_iff.mp found
  have whole := (List.getElem_cons_eraseIdx_perm inside).countP_eq holds
  rw [← whole, List.countP_cons]
  cases holds list[index] <;> rfl

/-- A value that was set in a list, and the one it replaced. -/
theorem getElem?_set_self_eq_some
    {new found : α}
    (holds : (list.set index new)[index]? = some found) :
    found = new ∧ ∃ old, list[index]? = some old := by
  have inside : index < list.length := by
    have inNew := (List.getElem?_eq_some_iff.mp holds).1
    rwa [List.length_set] at inNew
  rw [List.getElem?_set_self inside, Option.some.injEq] at holds
  exact ⟨holds.symm, list[index], List.getElem?_eq_getElem inside⟩

end

/-- Workers and appliers that a step starts carry nothing yet. -/
theorem countP_carries_map
    {start : Nat → Thread}
    (idle : ∀ fi, (start fi).call? = none)
    (fi : Nat)
    (members : List Nat) :
    (members.map start).countP (Thread.carries fi) = 0 := by
  refine List.countP_eq_zero.mpr fun thread held => ?_
  obtain ⟨member, -, rfl⟩ := List.mem_map.mp held
  simp [Thread.carries, idle]

/-- Only the append workers set up and end rounds. -/
theorem Node.Step.rounds_kept
    {mapped : Nat → Prop}
    {node after : Node}
    {act : Act}
    {outputs : Outputs}
    (step : node.Step mapped act after outputs)
    (other : act.isWorker = false)
    (noRestart : ∀ kernel cacheLost, act ≠ .restart kernel cacheLost)
    (fi : Nat) :
    after.threads.countP (Thread.carries fi) =
      node.threads.countP (Thread.carries fi) := by
  have erased :
      ∀ {index : Nat} {thread : Thread},
        node.threads[index]? = some thread →
        thread.call? = none →
        (node.threads.eraseIdx index).countP (Thread.carries fi) =
          node.threads.countP (Thread.carries fi) := by
    intro index thread found idle
    have counted := countP_eraseIdx_add (Thread.carries fi) found
    simpa [Thread.carries, idle] using counted
  cases step with
  | spawnAppends _ =>
      rw [List.countP_append, countP_carries_map (fun _ => rfl),
        Nat.add_zero]
  | spawnVotes _ =>
      rw [List.countP_append, countP_carries_map (fun _ => rfl),
        Nat.add_zero]
  | voteSent found =>
      exact countP_set_add (Thread.carries fi) found _
  | voteCounted found => exact erased found rfl
  | voteDropped found => exact erased found rfl
  | appendFinished found _ => exact erased found rfl
  | appendBegun _ => rw [List.countP_append]; rfl
  | commandsAppended _ => rw [List.countP_append]; rfl
  | commandsSpawned found =>
      rw [List.countP_append, countP_carries_map (fun _ => rfl),
        Nat.add_zero]
      exact erased found rfl
  | appendHeld _ => cases other
  | appendCopying _ _ _ => cases other
  | appendSent _ _ _ => cases other
  | appendSendThrew _ => cases other
  | leaderCopied _ => cases other
  | leaderCopyFailed _ => cases other
  | appendAnswered _ _ => cases other
  | appendDropped _ => cases other
  | restarted => exact absurd rfl (noRestart _ _)
  | restartThrew => exact absurd rfl (noRestart _ _)
  | _ => rfl

/-- A flag is set exactly when one thread carries entries to the member. -/
def FlagsMatch
    (threads : List Thread)
    (inflights : List Bool) : Prop :=
  ∀ fi flag,
    inflights[fi]? = some flag →
    threads.countP (Thread.carries fi) = flag.toNat

namespace FlagsMatch

variable {threads : List Thread} {inflights : List Bool}
variable {index fi : Nat} {old new : Thread}

/-- A worker sets up a request with entries and sets the clear flag. -/
theorem start
    (flags : FlagsMatch threads inflights)
    (found : threads[index]? = some old)
    (idle : ∀ follower, old.carries follower = false)
    (carries : ∀ follower, new.carries follower = decide (fi = follower))
    (clear : inflights.getD fi false = false) :
    FlagsMatch (threads.set index new) (inflights.set fi true) := by
  intro follower flag holds
  have counted := countP_set_add (Thread.carries follower) found new
  rw [idle, carries] at counted
  by_cases same : fi = follower
  · subst same
    obtain ⟨rfl, wasSet, held⟩ := getElem?_set_self_eq_some holds
    have wasClear : wasSet = false := by
      rw [← clear, List.getD_eq_getElem?_getD, held]
      rfl
    have none := flags fi false (wasClear ▸ held)
    rw [none, decide_eq_true rfl] at counted
    simpa using counted
  · rw [List.getElem?_set_ne same] at holds
    rw [decide_eq_false same] at counted
    exact counted.trans (flags follower flag holds)

/-- A thread goes on to a section in which it carries the same. -/
theorem replace
    (flags : FlagsMatch threads inflights)
    (found : threads[index]? = some old)
    (same : ∀ follower, new.carries follower = old.carries follower) :
    FlagsMatch (threads.set index new) inflights := by
  intro follower flag holds
  have counted := countP_set_add (Thread.carries follower) found new
  rw [same, Nat.add_right_cancel_iff] at counted
  exact counted.trans (flags follower flag holds)

/-- A worker that carries entries ends and clears its flag. -/
theorem finish
    (flags : FlagsMatch threads inflights)
    (found : threads[index]? = some old)
    (carries : ∀ follower, old.carries follower = decide (fi = follower)) :
    FlagsMatch (threads.eraseIdx index) (inflights.set fi false) := by
  intro follower flag holds
  have counted := countP_eraseIdx_add (Thread.carries follower) found
  rw [carries] at counted
  by_cases same : fi = follower
  · subst same
    obtain ⟨rfl, wasSet, held⟩ := getElem?_set_self_eq_some holds
    have atMostOne := Bool.toNat_le wasSet
    rw [flags fi wasSet held, decide_eq_true rfl] at counted
    simp only [Bool.toNat_true, Bool.toNat_false] at counted ⊢
    omega
  · rw [List.getElem?_set_ne same] at holds
    rw [decide_eq_false same] at counted
    exact counted.trans (flags follower flag holds)

/-- A thread that carries nothing ends. -/
theorem drop
    (flags : FlagsMatch threads inflights)
    (found : threads[index]? = some old)
    (idle : ∀ follower, old.carries follower = false) :
    FlagsMatch (threads.eraseIdx index) inflights := by
  intro follower flag holds
  have counted := countP_eraseIdx_add (Thread.carries follower) found
  rw [idle] at counted
  exact counted.trans (flags follower flag holds)

end FlagsMatch

/-- Flags and rounds, with the entry counts of the requests under way. -/
structure Process.RoundsMatch (proc : Process) : Prop where
  flags : FlagsMatch proc.threads proc.server.inflights
  counted :
    ∀ thread ∈ proc.threads, ∀ fi call,
      thread.call? = some (fi, call) → call.req.numEntries = call.lenEntries

/-- A request under way has as many entries as the worker noted. -/
theorem Node.Step.counted
    {mapped : Nat → Prop}
    {node after : Node}
    {act : Act}
    {outputs : Outputs}
    (step : node.Step mapped act after outputs)
    (counted :
      ∀ thread ∈ node.threads, ∀ fi call,
        thread.call? = some (fi, call) →
        call.req.numEntries = call.lenEntries) :
    ∀ thread ∈ after.threads, ∀ fi call,
      thread.call? = some (fi, call) →
      call.req.numEntries = call.lenEntries := by
  intro thread held fi call calls
  rcases step.thread_origin held with old | new
  · exact counted thread old fi call calls
  · cases new with
    | leaderCopy _ built _ _ =>
        cases calls
        exact built.numEntries
    | appendCall _ built _ _ =>
        cases calls
        exact built.numEntries
    | copiedCall copying =>
        cases calls
        have same := counted _ copying _ _ rfl
        exact same
    | _ => cases calls

section

variable {proc : Process} {outcomes : IoOutcomes} {index fi : Nat}

/-- The worker carries entries exactly when it has set the flag. -/
theorem carries_eq
    {thread : Thread}
    {call : AppendCall}
    (calls : thread.call? = some (fi, call))
    (counted : call.req.numEntries = call.lenEntries)
    (follower : Nat) :
    thread.carries follower =
      (decide (fi = follower) && call.hasEntries) := by
  simp only [Thread.carries, calls, Option.any_some, counted,
    AppendCall.hasEntries]

/-- Lock B starts a round exactly when it sets the flag. -/
theorem stepAppendSend_flags
    (flags : FlagsMatch proc.threads proc.server.inflights)
    (positive : proc.server.SlotsPositive)
    (found : proc.threads[index]? = some (.appendWorker fi)) :
    FlagsMatch (proc.stepAppendSend outcomes index fi).1.threads
      (proc.stepAppendSend outcomes index fi).1.server.inflights := by
  have spec := appendEntriesSend_inflights fi
    (show (proc.server.withOutcomes outcomes).SlotsPositive from positive)
  have sound := appendEntriesSend_spec fi
    (show (proc.server.withOutcomes outcomes).SlotsPositive from positive)
  have idle : ∀ follower, (Thread.appendWorker fi).carries follower = false :=
    fun _ => rfl
  have same :
      (proc.server.withOutcomes outcomes).inflights = proc.server.inflights :=
    rfl
  rw [same] at spec
  refine execOrHalt_wp
    (fun result => FlagsMatch result.1.threads result.1.server.inflights)
    (wp_and spec sound) ?_ ?_
  · rintro built server ⟨flagged, -, calls⟩
    cases built with
    | none =>
        have dropped := flags.drop found idle
        rw [← show server.inflights = proc.server.inflights from flagged]
          at dropped
        exact dropped
    | some call =>
        have counted := (calls call rfl).1.numEntries
        -- Whichever section comes next, the worker now has this request.
        have placed :
            ∀ thread : Thread,
              thread.call? = some (fi, call) →
              FlagsMatch (proc.threads.set index thread)
                server.inflights := by
          intro thread owns
          have carries := carries_eq owns counted
          dsimp only at flagged
          by_cases entries : call.hasEntries = true
          · rw [if_pos entries] at flagged
            simp only [entries, Bool.and_true] at carries
            rw [flagged.2]
            exact flags.start found idle carries flagged.1
          · rw [if_neg entries] at flagged
            simp only [entries, Bool.and_false] at carries
            rw [flagged]
            exact flags.replace found carries
        dsimp only
        split
        · exact placed (.leaderCopy fi call) rfl
        · exact placed (.appendCall fi call) rfl
  · rintro _ server ⟨flagged, -⟩
    rw [← flagged] at flags
    exact flags

/-- The end of a post-RPC section ends the round and clears the flag. -/
theorem stepAppendReply_flags
    {thread : Thread}
    {call : AppendCall}
    (flags : FlagsMatch proc.threads proc.server.inflights)
    (found : proc.threads[index]? = some thread)
    (calls : thread.call? = some (fi, call))
    (counted : call.req.numEntries = call.lenEntries)
    (answer : Option AppendEntriesResponse) :
    FlagsMatch (proc.stepAppendReply outcomes index fi call answer).1.threads
      (proc.stepAppendReply outcomes index fi call
        answer).1.server.inflights := by
  have carries := carries_eq calls counted
  have cleared :=
    bookAnswer_inflights (proc.server.withOutcomes outcomes) fi call answer
  show FlagsMatch (proc.threads.eraseIdx index)
    ((proc.server.withOutcomes outcomes).bookAnswer fi call answer).inflights
  rw [cleared]
  split
  · rename_i entries
    simp only [entries, Bool.and_true] at carries
    exact flags.finish found carries
  · rename_i empty
    simp only [empty, Bool.and_false] at carries
    exact flags.drop found carries

/-- A section of an append worker keeps flags and rounds together. -/
theorem stepWorker_flags
    {act : Act}
    {thread : Thread}
    {result : Process × Outputs}
    (roundsMatch : proc.RoundsMatch)
    (positive : proc.server.SlotsPositive)
    (worker : act.isWorker = true)
    (position : act.thread? = some index)
    (found : proc.threads[index]? = some thread)
    (stepped :
      proc.stepThread outcomes act (some thread) = some result) :
    FlagsMatch result.1.threads result.1.server.inflights := by
  have flags := roundsMatch.flags
  have counted :=
    roundsMatch.counted thread (List.mem_of_getElem? found)
  unfold Process.stepThread at stepped
  split at stepped <;> rename_i same <;> cases stepped <;> cases same <;>
    cases position
  · cases worker
  · cases worker
  · cases worker
  · exact stepAppendSend_flags flags positive found
  · rename_i copied fi call
    unfold Process.stepLeaderCopied
    cases copied with
    | true =>
        exact flags.replace found fun follower => rfl
    | false =>
        exact stepAppendReply_flags flags found rfl (counted _ _ rfl) none
  · exact stepAppendReply_flags flags found rfl (counted _ _ rfl) _
  · exact stepAppendReply_flags flags found rfl (counted _ _ rfl) none
  · cases worker
  · cases worker

/-- A fresh process has no worker and no flag. -/
theorem startUp_flags
    (kernel : KernelAnswers) :
    FlagsMatch (proc.startUp outcomes kernel).1.threads
      (proc.startUp outcomes kernel).1.server.inflights := by
  have frames : Frames Server.inflights (initStorage kernel) := by
    refine initStorage_frames (createRingFile_frames ?_ kernel)
      (fun _ _ => rfl) ?_ ?_ fun _ => rfl
    · intro first second sameRaft _
      simp only [Server.inflights, sameRaft]
    · intro server header
      unfold Server.restoreHeader
      generalize getU64Le header = headerTerm
      generalize getU64Le (header.drop 8) = headerVote
      dsimp only
      split <;> exact setVotedFor_inflights _ headerVote
    · exact fun server => setVotedFor_inflights _ 0
  have clear :
      proc.server.constructed.inflights =
        proc.server.raft.cluster.map fun _ => false := by
    simp only [Server.constructed, Server.inflights, List.map_map,
      Function.comp_def]
  have matching :
      ∀ server : Server,
        server.inflights = proc.server.constructed.inflights →
        FlagsMatch [] server.inflights := by
    intro server same fi flag holds
    rw [same, clear, List.getElem?_map] at holds
    obtain ⟨member, -, rfl⟩ := Option.map_eq_some_iff.mp holds
    rfl
  refine execOrHalt_wp
    (fun result => FlagsMatch result.1.threads result.1.server.inflights)
    (frames.ends _) ?_ ?_
  · exact fun _ server same => matching server same
  · exact fun _ server same => matching server same

/-- An append worker's act names its thread. -/
theorem worker_position
    {act : Act}
    (worker : act.isWorker = true) :
    ∃ index, act.thread? = some index := by
  cases act with
  | appendSend index => exact ⟨index, rfl⟩
  | leaderCopied index copied => exact ⟨index, rfl⟩
  | appendReply index rsp => exact ⟨index, rfl⟩
  | appendDrop index => exact ⟨index, rfl⟩
  | _ => cases worker

/-- An act that names a thread continues it, in a running process. -/
theorem step_continues
    {act : Act}
    {result : Process × Outputs}
    (position : act.thread? = some index)
    (stepped : proc.step outcomes act = some result) :
    proc.halted = false ∧
      ∃ thread,
        proc.threads[index]? = some thread ∧
          proc.stepThread outcomes act (some thread) = some result := by
  have restarts : ∀ kernel cacheLost, act ≠ .restart kernel cacheLost := by
    rintro kernel cacheLost rfl
    cases position
  refine ⟨Process.running_of_step stepped restarts, ?_⟩
  have continued :
      proc.stepThread outcomes act proc.threads[index]? = some result := by
    unfold Process.step at stepped
    split at stepped
    · cases position
    · split at stepped
      · cases stepped
      · split at stepped
        · cases position
        · cases position
        · cases position
        · cases position
        · cases position
        · cases position
        · rw [position] at stepped
          exact stepped
  cases found : proc.threads[index]? with
  | none =>
      rw [found] at continued
      cases act <;> cases continued
  | some thread =>
      rw [found] at continued
      exact ⟨thread, rfl, continued⟩

/-- Every step keeps flags and rounds together. -/
theorem Process.step_roundsMatch
    {act : Act}
    {result : Process × Outputs}
    (wellformed : proc.Wellformed)
    (roundsMatch : proc.RoundsMatch)
    (stepped : proc.step outcomes act = some result) :
    result.1.RoundsMatch := by
  have does := Process.step_does wellformed stepped
  refine ⟨?_, does.counted roundsMatch.counted⟩
  by_cases restarts : ∃ kernel cacheLost, act = .restart kernel cacheLost
  · obtain ⟨kernel, cacheLost, rfl⟩ := restarts
    simp only [Process.step, Option.some.injEq] at stepped
    rw [← stepped]
    exact startUp_flags kernel
  · have noRestart : ∀ kernel cacheLost, act ≠ .restart kernel cacheLost :=
      fun kernel cacheLost same => restarts ⟨kernel, cacheLost, same⟩
    cases worker : act.isWorker with
    | false =>
        have sameFlags := Process.step_keeps (body_inflights worker)
          (fun _ _ => rfl) stepped noRestart
        intro fi flag holds
        rw [sameFlags] at holds
        exact (does.rounds_kept worker noRestart fi).trans
          (roundsMatch.flags fi flag holds)
    | true =>
        obtain ⟨index, position⟩ := worker_position worker
        obtain ⟨-, thread, found, continued⟩ :=
          step_continues position stepped
        exact stepWorker_flags roundsMatch wellformed.positive worker
          position found continued

end

/-- A worker with entries under way goes on with them or clears the flag. -/
theorem worker_exit_clears
    {proc : Process}
    {outcomes : IoOutcomes}
    {act : Act}
    {result : Process × Outputs}
    {index fi : Nat}
    {thread : Thread}
    (roundsMatch : proc.RoundsMatch)
    (found : proc.threads[index]? = some thread)
    (carries : thread.carries fi = true)
    (position : act.thread? = some index)
    (stepped : proc.step outcomes act = some result) :
    (∃ onward,
      result.1.threads = proc.threads.set index onward ∧
        onward.carries fi = true ∧
          result.1.server.inflights = proc.server.inflights) ∨
      (result.1.threads = proc.threads.eraseIdx index ∧
        result.1.server.inflights = proc.server.inflights.set fi false ∧
          result.1.halted = false) := by
  obtain ⟨running, _, sameThread, continued⟩ :=
    step_continues position stepped
  cases found.symm.trans sameThread
  obtain ⟨⟨other, call⟩, calls, here⟩ := (Option.any_eq_true _ _).mp carries
  obtain ⟨same, someEntries⟩ := Bool.and_eq_true_iff.mp here
  cases of_decide_eq_true same
  have counted :=
    roundsMatch.counted thread (List.mem_of_getElem? found) other call calls
  rw [counted] at someEntries
  have entries : call.hasEntries = true := someEntries
  have ended :
      ∀ answer,
        (proc.stepAppendReply outcomes index other call
            answer).1.server.inflights =
          proc.server.inflights.set other false := fun answer =>
    (bookAnswer_inflights _ other call answer).trans (if_pos entries)
  unfold Process.stepThread at continued
  split at continued <;> rename_i same <;> cases continued <;> cases same <;>
    cases position <;> cases calls
  · rename_i copied
    unfold Process.stepLeaderCopied
    cases copied with
    | true =>
        exact Or.inl ⟨_, rfl, carries, rfl⟩
    | false =>
        exact Or.inr ⟨rfl, ended none, running⟩
  · exact Or.inr ⟨rfl, ended _, running⟩
  · exact Or.inr ⟨rfl, ended none, running⟩

theorem boot_roundsMatch
    {n : Nat}
    (members : Membership n)
    (settings : Fin n → Settings)
    (node : Fin n) :
    (members.boot settings node).RoundsMatch where
  flags := startUp_flags _
  counted := by
    intro thread held
    obtain ⟨halted, fresh⟩ := boot_node members settings node
    have none : (members.boot settings node).threads = [] :=
      congrArg Node.threads fresh
    rw [none] at held
    cases held

/--
At most one data-bearing round per follower: in every state a node reaches,
the workers with a request with entries to a follower under way number at most
one, the follower's flag is set exactly when there is one, and a worker that
has set the flag leaves only by a section that clears it.
-/
theorem one_round_per_follower
    {n : Nat}
    {members : Membership n}
    {settings : Fin n → Settings}
    {node : Fin n}
    {inputs : List Input}
    {proc : Process}
    (run : (members.boot settings node).Reaches inputs proc)
    {fi : Nat}
    {follower : ClusterMember}
    (found : proc.server.raft.cluster[fi]? = some follower) :
    proc.rounds fi ≤ 1 ∧
      (follower.inflight = true ↔ proc.rounds fi = 1) ∧
      ∀ index thread input next,
        proc.threads[index]? = some thread →
        thread.carries fi = true →
        input.act.thread? = some index →
        proc.advance input = some next →
        (∃ onward,
          next.threads = proc.threads.set index onward ∧
            onward.carries fi = true ∧
              next.server.inflights = proc.server.inflights) ∨
          (next.threads = proc.threads.eraseIdx index ∧
            next.server.inflights = proc.server.inflights.set fi false ∧
              next.halted = false) := by
  have kept : proc.Wellformed ∧ proc.RoundsMatch := by
    refine runWhile_invariant
      (fun proc => proc.Wellformed ∧ proc.RoundsMatch)
      (fun proc input next holds _ advanced => ?_) ?_ run
    · obtain ⟨result, stepped, rfl⟩ := Option.map_eq_some_iff.mp advanced
      exact ⟨Process.step_wellformed holds.1 stepped,
        Process.step_roundsMatch holds.1 holds.2 stepped⟩
    · exact ⟨boot_wellformed members settings node,
        boot_roundsMatch members settings node⟩
  have flag : proc.rounds fi = follower.inflight.toNat := by
    refine kept.2.flags fi follower.inflight ?_
    rw [Server.inflights, List.getElem?_map, found]
    rfl
  refine ⟨flag ▸ Bool.toNat_le _, ?_, ?_⟩
  · rw [flag]
    cases follower.inflight <;> decide
  · intro index thread input next held carries position advanced
    obtain ⟨result, stepped, rfl⟩ := Option.map_eq_some_iff.mp advanced
    exact worker_exit_clears kept.2 held carries position stepped

/-- The first node wins an election with the vote of the second. -/
def firstLead : List Input :=
  [{ act := mainAct false }, { act := mainAct true }, { act := mainAct false },
   { act := .voteSend 0 },
   { act := .voteReply 0 { term := 1, voteGranted := true } },
   { act := .voteSend 0 }, { act := .voteDrop 0 },
   { act := mainAct false }, { act := mainAct false }, { act := mainAct false },
   { act := mainAct false }]

/-- Its first heartbeat brings the no-op entry to the second member. -/
def firstRound : List Input :=
  firstLead ++
    [{ act := mainAct false }, { act := mainAct true },
     { act := mainAct false }, { act := .appendSend 0 }]

/-- The round under way is the only one, and its flag is set. -/
theorem first_round_is_counted :
    ∃ proc follower,
      firstNode.Reaches firstRound proc ∧
        proc.server.raft.cluster[1]? = some follower ∧
          follower.inflight = true ∧
            (follower.inflight = true ↔ proc.rounds 1 = 1) := by
  obtain ⟨proc, run, flagged⟩ :
      ∃ proc,
        runWhile (fun _ _ => true) Process.advance firstNode firstRound =
            some proc ∧
          proc.server.raft.cluster[1]?.any ClusterMember.inflight = true :=
    runWhile_exists (by decide +kernel)
  obtain ⟨follower, found, inflight⟩ := (Option.any_eq_true _ _).mp flagged
  exact ⟨proc, follower, run, found, inflight,
    (one_round_per_follower run found).2.1⟩

end NvmeofRaft
