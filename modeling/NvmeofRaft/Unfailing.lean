import NvmeofRaft.Footprint
import NvmeofRaft.PersistFrame

namespace NvmeofRaft

/-!
# Sections whose I/O calls succeed

The persistence code throws only when a `write_at_file` or an `fdatasync` call
fails.  A section that reaches nothing else returns as long as the coming I/O
calls succeed.
-/

/-- Every coming I/O call succeeds. -/
def IoOutcomes.succeed (outcomes : IoOutcomes) : Bool :=
  outcomes.writes.all (fun outcome => decide (outcome = .done)) &&
    outcomes.syncs.all id

/-- The next write succeeds, and so do the calls behind it. -/
theorem IoOutcomes.succeed_write
    {outcomes : IoOutcomes}
    (succeed : outcomes.succeed = true) :
    outcomes.writes.headD .done = .done ∧
      { outcomes with writes := outcomes.writes.tail }.succeed = true := by
  obtain ⟨writes, syncs⟩ := Bool.and_eq_true_iff.mp succeed
  cases all : outcomes.writes with
  | nil =>
      refine ⟨rfl, ?_⟩
      simp [IoOutcomes.succeed, syncs]
  | cons first rest =>
      rw [all, List.all_cons, Bool.and_eq_true_iff] at writes
      refine ⟨of_decide_eq_true writes.1, ?_⟩
      simp only [IoOutcomes.succeed, List.tail_cons, writes.2, syncs,
        Bool.and_self]

theorem IoOutcomes.succeed_sync
    {outcomes : IoOutcomes}
    (succeed : outcomes.succeed = true) :
    outcomes.syncs.headD true = true ∧
      { outcomes with syncs := outcomes.syncs.tail }.succeed = true := by
  obtain ⟨writes, syncs⟩ := Bool.and_eq_true_iff.mp succeed
  cases all : outcomes.syncs with
  | nil =>
      refine ⟨rfl, ?_⟩
      simp [IoOutcomes.succeed, writes]
  | cons first rest =>
      rw [all, List.all_cons, Bool.and_eq_true_iff] at syncs
      refine ⟨syncs.1, ?_⟩
      simp only [IoOutcomes.succeed, List.tail_cons, writes, syncs.2,
        Bool.and_self]

/-- The server's coming I/O calls succeed. -/
def Server.Succeeds (server : Server) : Prop :=
  server.io.outcomes.succeed = true

/--
With successful I/O calls the computation returns, and the calls it leaves
over succeed.
-/
def Unfailing
    {α : Type}
    (action : Section α) : Prop :=
  ∀ server : Server,
    server.Succeeds →
    wp action (fun _ final => final.Succeeds) (fun _ _ => False) server

namespace Unfailing

variable {α β : Type}

theorem pure
    (value : α) :
    Unfailing (Pure.pure value) :=
  fun _ succeeds => succeeds

theorem get :
    Unfailing MonadState.get :=
  fun _ succeeds => succeeds

/-- A state change that leaves the coming I/O calls alone. -/
theorem modifyState
    {change : Server → Server}
    (untouched :
      ∀ server, (change server).io.outcomes = server.io.outcomes) :
    Unfailing (modify change) := by
  intro server succeeds
  show (change server).io.outcomes.succeed = true
  rw [untouched]
  exact succeeds

/-- Sections without failing calls may follow one another. -/
theorem bind
    {action : Section α}
    {continuation : α → Section β}
    (first : Unfailing action)
    (later : ∀ value, Unfailing (continuation value)) :
    Unfailing (action >>= continuation) := by
  intro server succeeds
  rw [wp_bind]
  exact wp_mono (first server succeeds)
    (fun value middle kept => later value middle kept) fun _ _ never => never

theorem ite
    {condition : Prop}
    [Decidable condition]
    {yes no : Section α}
    (whenTrue : Unfailing yes)
    (whenFalse : Unfailing no) :
    Unfailing (if condition then yes else no) := by
  split
  · exact whenTrue
  · exact whenFalse

theorem discard
    {action : Section α}
    (first : Unfailing action) :
    Unfailing (Functor.discard action) :=
  bind first fun _ => pure _

/-- Such a computation ends in some state with some value. -/
theorem returns
    {action : Section α}
    (unfailing : Unfailing action)
    {server : Server}
    (succeeds : server.Succeeds) :
    ∃ value final, action.run server = .ok value final := by
  have ends := unfailing server succeeds
  unfold wp at ends
  cases ended : action.run server with
  | ok value final =>
      exact ⟨value, final, rfl⟩
  | error exn final =>
      rw [ended] at ends
      exact ends.elim

end Unfailing

/-- A write that succeeds throws nothing. -/
theorem writeAtFile_unfailing
    (data : List UInt8)
    (offset : Nat) :
    Unfailing (writeAtFile data offset) := by
  intro server succeeds
  obtain ⟨done, succeed⟩ := IoOutcomes.succeed_write succeeds
  simp only [writeAtFile, nextWriteOutcome, wp_bind, wp_get, wp_modify,
    wp_pure, done]
  exact succeed

theorem fdatasync_unfailing :
    Unfailing fdatasync := by
  intro server succeeds
  obtain ⟨done, succeed⟩ := IoOutcomes.succeed_sync succeeds
  simp only [fdatasync, nextSyncOutcome, wp_bind, wp_get, wp_modify,
    wp_pure, done, if_true]
  exact succeed

theorem flushRun_unfailing
    (runOff : Nat) :
    Unfailing (flushRun runOff) := by
  refine Unfailing.bind Unfailing.get fun server =>
    Unfailing.ite (Unfailing.pure _) ?_
  exact Unfailing.bind (writeAtFile_unfailing _ _) fun _ =>
    Unfailing.bind (Unfailing.modifyState fun _ => rfl) fun _ =>
      Unfailing.pure _

theorem wrapTail_unfailing
    (needed runOff : Nat) :
    Unfailing (wrapTail needed runOff) := by
  refine Unfailing.bind Unfailing.get fun server =>
    Unfailing.ite ?_ (Unfailing.pure _)
  exact Unfailing.bind (flushRun_unfailing _) fun _ =>
    Unfailing.bind (Unfailing.modifyState fun _ => rfl) fun _ =>
      Unfailing.pure _

theorem skipExtentEnd_unfailing
    (needed runOff : Nat)
    (extHint : Int) :
    Unfailing (skipExtentEnd needed runOff extHint) := by
  refine Unfailing.bind Unfailing.get fun server =>
    Unfailing.ite (Unfailing.pure _) ?_
  refine Unfailing.ite ?_ (Unfailing.pure _)
  exact Unfailing.bind (flushRun_unfailing _) fun _ =>
    Unfailing.bind (Unfailing.modifyState fun _ => rfl) fun _ =>
      Unfailing.bind Unfailing.get fun _ => Unfailing.pure _

theorem placeEntry_unfailing
    (entry : Entry)
    (needed logIdx runOff : Nat) :
    Unfailing (placeEntry entry needed logIdx runOff) := by
  refine Unfailing.bind Unfailing.get fun server =>
    Unfailing.bind (Unfailing.modifyState fun _ => rfl) fun _ =>
      Unfailing.ite ?_ (Unfailing.pure _)
  exact Unfailing.bind (Unfailing.modifyState fun _ => rfl) fun _ =>
    Unfailing.pure _

/-- The entry loop fails in its writes only. -/
theorem persistEntries_unfailing
    (entries : List Entry) :
    ∀ logIdx cursor, Unfailing (persistEntries entries logIdx cursor) := by
  induction entries with
  | nil =>
      intro logIdx cursor
      exact Unfailing.pure _
  | cons entry rest inductionHypothesis =>
      intro logIdx cursor
      refine Unfailing.bind ?_ fun _ => inductionHypothesis _ _
      exact Unfailing.bind (wrapTail_unfailing _ _) fun _ =>
        Unfailing.bind (skipExtentEnd_unfailing _ _ _) fun _ =>
          Unfailing.bind (placeEntry_unfailing _ _ _ _) fun _ =>
            Unfailing.pure _

theorem persistLog_unfailing
    (count : Nat) :
    Unfailing (persistLog count) :=
  Unfailing.bind Unfailing.get fun _ =>
    Unfailing.bind (Unfailing.modifyState fun _ => rfl) fun _ =>
      Unfailing.bind (persistEntries_unfailing _ _ _) fun _ =>
        (flushRun_unfailing _).discard

theorem persistSync_unfailing
    (logging : Bool) :
    Unfailing (persistSync logging) := by
  have header : Unfailing persistHeader :=
    Unfailing.bind Unfailing.get fun _ =>
      Unfailing.bind (writeAtFile_unfailing _ _) fun _ =>
        Unfailing.modifyState fun _ => rfl
  exact Unfailing.bind Unfailing.get fun _ =>
    Unfailing.ite (Unfailing.bind header fun _ => fdatasync_unfailing)
      (Unfailing.ite fdatasync_unfailing (Unfailing.pure _))

/-- `persist_circular` fails in its I/O calls only. -/
theorem persistCircular_unfailing
    (writeLog : Bool)
    (nNewEntries : Nat) :
    Unfailing (persistCircular writeLog nNewEntries) := by
  refine Unfailing.bind Unfailing.get fun server => Unfailing.ite ?_ ?_
  · exact Unfailing.bind (persistLog_unfailing _) fun _ =>
      Unfailing.bind (persistSync_unfailing _) fun _ =>
        Unfailing.modifyState fun _ => rfl
  · exact Unfailing.bind (persistSync_unfailing _) fun _ =>
      Unfailing.modifyState fun _ => rfl

theorem updateTerm_unfailing
    (msgTerm : Nat) :
    Unfailing (updateTerm msgTerm) := by
  refine Unfailing.bind Unfailing.get fun server =>
    Unfailing.ite ?_ (Unfailing.pure _)
  exact Unfailing.bind (Unfailing.modifyState fun _ => rfl) fun _ =>
    Unfailing.bind (persistCircular_unfailing _ _) fun _ => Unfailing.pure _

theorem finishAppend_unfailing
    (req : AppendEntriesRequest)
    (rspTerm : Nat) :
    Unfailing (finishAppend req rspTerm) :=
  Unfailing.bind (Unfailing.modifyState fun _ => rfl) fun _ =>
    Unfailing.bind (persistCircular_unfailing _ _) fun _ => Unfailing.pure _

theorem appendMetas_io
    (skipEntries : Nat) :
    ∀ (metas : List EntryMeta) (index : Nat) (server : Server),
      (appendMetas skipEntries index metas server).io = server.io := by
  intro metas index server
  obtain ⟨log, tailSlot, same⟩ :=
    appendMetas_only skipEntries metas index server
  rw [same]

/-- An append handler fails in its I/O calls only. -/
theorem completeAppend_unfailing
    (pending : PendingAppend) :
    Unfailing (completeAppend pending) := by
  refine Unfailing.bind (Unfailing.modifyState fun server => ?_) fun _ =>
    finishAppend_unfailing _ _
  unfold Server.buildLog
  split
  · show (appendMetas _ _ _ server).io.outcomes = _
    rw [appendMetas_io]
  · rfl

theorem handleAppendEntriesRequest_unfailing
    (req : AppendEntriesRequest) :
    Unfailing (handleAppendEntriesRequest req) := by
  have accepted : Unfailing (acceptAppend req) := by
    refine Unfailing.bind Unfailing.get fun server => Unfailing.ite ?_ ?_
    · exact Unfailing.bind (finishAppend_unfailing _ _) fun _ =>
        Unfailing.pure _
    · refine Unfailing.ite ?_ ?_
      · refine Unfailing.bind (Unfailing.modifyState fun _ => rfl) fun _ =>
          Unfailing.ite ?_ (Unfailing.pure _)
        exact Unfailing.bind (completeAppend_unfailing _) fun _ =>
          Unfailing.pure _
      · exact Unfailing.bind (finishAppend_unfailing _ _) fun _ =>
          Unfailing.pure _
  refine Unfailing.bind (updateTerm_unfailing _).discard fun _ => ?_
  refine Unfailing.bind (Unfailing.modifyState fun server => ?_) fun _ => ?_
  · unfold Server.stepDown
    split <;> rfl
  · refine Unfailing.bind Unfailing.get fun server =>
      Unfailing.ite (Unfailing.pure _) ?_
    cases prevLogConflict server req with
    | some rsp =>
        exact Unfailing.pure _
    | none =>
        exact accepted

theorem handleAppendEntriesFinish_unfailing
    (pending : PendingAppend)
    (copied : Bool) :
    Unfailing (handleAppendEntriesFinish pending copied) :=
  Unfailing.ite (completeAppend_unfailing pending) (Unfailing.pure _)

end NvmeofRaft
