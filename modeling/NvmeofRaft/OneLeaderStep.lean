import NvmeofRaft.CopyStep
import NvmeofRaft.FollowerStep
import NvmeofRaft.ReplicationModes

namespace NvmeofRaft

/-!
# A step of a run of one leader

A section of a node keeps what the runs of one leader keep: the requests of the
leader describe placed entries, a copy that is over has brought them, and a
follower takes only what has arrived.
-/

section

variable {n : Nat}

/-- The conditions on a section of a node, on the act as it is run. -/
structure Fabric.Permits
    (fabric : Fabric n)
    (leader node : Fin n)
    (outcomes : IoOutcomes)
    (act : Act) : Prop where
  succeed : outcomes.succeed = true
  stays : act.isRestart = false
  wins :
    (fabric.cluster.procs node).node.wins act = true →
    node = leader ∧ fabric.placed = []
  sends :
    ∀ index,
      act = .appendSend index →
      (fabric.cluster.procs node).server.raft.state = .leader ∧
        ∀ fi,
          (fabric.cluster.procs node).threads[index]? =
            some (.appendWorker fi) →
          ((fabric.cluster.procs node).server.withOutcomes
            outcomes).sendsSizes fi = true
  copies :
    ∀ index fi call,
      act = .leaderCopied index true →
      (fabric.cluster.procs node).threads[index]? =
        some (.leaderCopy fi call) →
      fabric.copied node index = true ∧
        (fabric.cluster.procs node).server.layout.holdsCopy call.req = true
  finishes :
    ∀ index src pending,
      act = .handleAppendFinish index true →
      (fabric.cluster.procs node).threads[index]? =
        some (.appendHandler src pending) →
      fabric.copied node index = true ∧
        pending.undisturbed (fabric.cluster.procs node).server = true ∧
          (fabric.cluster.procs node).server.layout.holdsCopy
            pending.req = true

/-- What a section of a node does to the fabric. -/
structure Fabric.NodeMoves
    (fabric next : Fabric n)
    (node : Fin n)
    (outcomes : IoOutcomes)
    (act : Act)
    (outputs : Outputs) : Prop where
  moves : fabric.cluster.Moves { node, outcomes, act } next.cluster outputs
  placed :
    next.placed =
      (next.cluster.procs node).placedBehind (fabric.cluster.procs node)
        fabric.placed
  landed : next.landed = fabric.landed

variable {members : Membership n} {fabric next : Fabric n}
variable {move : NvmeofRaft.Move n} {leader : Fin n}

theorem Fabric.stepNode_moves
    (sane : fabric.cluster.Sane members)
    (stepped : fabric.stepNode move = some next) :
    fabric.awaits move.node move.act = true ∧
      ∃ outputs,
        fabric.NodeMoves next move.node move.outcomes
          (fabric.loading move.node move.act) outputs := by
  unfold Fabric.stepNode at stepped
  split at stepped
  · rename_i awaits
    obtain ⟨cluster, ran, rfl⟩ := Option.map_eq_some_iff.mp stepped
    obtain ⟨outputs, moves⟩ := Cluster.step_moves sane ran
    exact ⟨awaits, outputs, moves, rfl, rfl⟩
  · cases stepped

@[simp] theorem loading_wins
    (fabric : Fabric n)
    (member : Fin n)
    (node : Node)
    (act : Act) :
    node.wins (fabric.loading member act) = node.wins act := by
  cases act <;> rfl

@[simp] theorem loading_isRestart
    (fabric : Fabric n)
    (member : Fin n)
    (act : Act) :
    (fabric.loading member act).isRestart = act.isRestart := by
  cases act <;> rfl

/-- Only `become_leader` loads. -/
theorem loading_eq
    {member : Fin n}
    {act : Act}
    (other :
      ∀ expired load, fabric.loading member act ≠ .main expired load) :
    fabric.loading member act = act := by
  cases act with
  | main expired load =>
      exact absurd rfl (other _ _)
  | _ =>
      rfl

theorem Fabric.permits
    (awaits : fabric.awaits move.node move.act = true)
    (scope : fabric.oneLeader leader (.node move) = true)
    (keeps : fabric.keepsCommands (.node move) = true) :
    fabric.Permits leader move.node move.outcomes
      (fabric.loading move.node move.act) := by
  simp only [Fabric.oneLeader, Bool.and_eq_true, Bool.not_eq_true',
    Bool.or_eq_true, decide_eq_true_eq, List.isEmpty_iff] at scope
  obtain ⟨⟨⟨succeed, stays⟩, wins⟩, sends⟩ := scope
  refine ⟨succeed, (loading_isRestart _ _ _).trans stays, fun won => ?_, ?_, ?_,
    ?_⟩
  · rw [loading_wins] at won
    exact wins.resolve_left fun lost => by simp [won] at lost
  · intro index act
    rw [loading_eq fun _ _ main => Act.noConfusion (act.symm.trans main)] at act
    rw [act] at sends
    refine ⟨of_decide_eq_true sends, fun fi found => ?_⟩
    simp only [Fabric.keepsCommands, act, found] at keeps
    exact keeps
  · intro index fi call act found
    rw [loading_eq fun _ _ main => Act.noConfusion (act.symm.trans main)] at act
    rw [act] at awaits
    refine ⟨awaits, ?_⟩
    simp only [Fabric.keepsCommands, act, Process.copyJob?, found] at keeps
    exact keeps
  · intro index src pending act found
    rw [loading_eq fun _ _ main => Act.noConfusion (act.symm.trans main)] at act
    rw [act] at awaits
    simp only [Fabric.keepsCommands, act, found, Bool.and_eq_true] at keeps
    exact ⟨awaits, keeps⟩

end

/-- What Lock B of a worker sends and which threads it leaves. -/
theorem Process.step_builds
    {proc : Process}
    {outcomes : IoOutcomes}
    {index fi : Nat}
    {result : Process × Outputs}
    (found : proc.threads[index]? = some (.appendWorker fi))
    (stepped : proc.step outcomes (.appendSend index) = some result) :
    (∀ output ∈ result.2,
      ∃ call,
        (proc.server.withOutcomes outcomes).builtCall? fi = some call ∧
          output = (fi, .appendRequest call.req)) ∧
      ∀ thread ∈ result.1.threads,
        thread ∈ proc.threads ∨
          ∃ call,
            (proc.server.withOutcomes outcomes).builtCall? fi = some call ∧
              (thread = .leaderCopy fi call ∧ call.hasEntries = true ∨
                thread = .appendCall fi call) := by
  unfold Process.step at stepped
  dsimp only at stepped
  split at stepped
  · cases stepped
  · simp only [Act.thread?, Option.bind_some, found, Process.stepThread,
      Option.some.injEq] at stepped
    rw [← stepped]
    unfold Process.stepAppendSend Process.execOrHalt Process.exec
    unfold Server.builtCall?
    cases ended :
        (appendEntriesSend fi).run (proc.server.withOutcomes outcomes) with
    | error exn server =>
        exact ⟨fun _ sent => absurd sent List.not_mem_nil,
          fun _ held => Or.inl held⟩
    | ok built server =>
        cases built with
        | none =>
            exact ⟨fun _ sent => absurd sent List.not_mem_nil,
              fun _ held => Or.inl (List.mem_of_mem_eraseIdx held)⟩
        | some call =>
            dsimp only
            split_ifs with copies
            · refine ⟨fun _ sent => absurd sent List.not_mem_nil,
                fun thread held => ?_⟩
              rcases List.mem_or_eq_of_mem_set held with old | rfl
              · exact Or.inl old
              · exact Or.inr ⟨call, rfl, Or.inl ⟨rfl, copies.1⟩⟩
            · refine ⟨fun output sent => ?_, fun thread held => ?_⟩
              · exact ⟨call, rfl, List.mem_singleton.mp sent⟩
              · rcases List.mem_or_eq_of_mem_set held with old | rfl
                · exact Or.inl old
                · exact Or.inr ⟨call, rfl, Or.inr rfl⟩

section

variable {n : Nat} {members : Membership n} {leader : Fin n}
variable {layouts : Fin n → RingLayout} {source : Nat} {fabric : Fabric n}

/-- A copy that is over has brought the entries of its request. -/
theorem Fabric.Sound.arrived
    (sound : fabric.Sound members leader layouts source)
    (rings : Rings leader layouts source)
    {owner : Fin n}
    {thread dst : Nat}
    {req : AppendEntriesRequest}
    (job :
      (fabric.cluster.procs owner).copyJob? owner thread = some (dst, req))
    (copied : fabric.copied owner thread = true)
    (inRing :
      (fabric.cluster.procs owner).server.layout.holdsCopy req = true) :
    ∃ member : Fin n,
      dst = member ∧ member ≠ leader ∧
        req.ArrivedIn (fabric.cluster.procs member).server.io.file
          (layouts leader) fabric.placed := by
  obtain ⟨member, rfl, other, -, describes⟩ := sound.copyJob job
  refine ⟨member, rfl, other, ?_⟩
  obtain ⟨length, lies⟩ := rings.source
  obtain ⟨dstAt, dstLength, destination, -⟩ := rings.lies owner
  simp only [Fabric.copied, job] at copied
  split at copied
  · rename_i chunks cut
    have ends := of_decide_eq_true inRing
    rw [sound.laidOut owner] at ends
    have carries := sound.carries lies destination describes ends cut
    intro offset item inside found some
    obtain ⟨entry, start⟩ := item
    obtain ⟨starts, stops⟩ :=
      describes.slots offset entry start inside found
    have within := describes.inRing
    refine ⟨by dsimp only; omega, holdsEntry_iff.mpr fun byte inEntry => ?_⟩
    dsimp only at some inEntry ⊢
    have size : copyBytes req.logBlockLength =
        (req.logBlockLength + 7) / 8 * 8 * sectorSize :=
      copyBytes_eq _
    have whole : start * sectorSize + entry.needed * sectorSize ≤
        req.startSlot * sectorSize + req.logBlockLength * sectorSize := by
      rw [← Nat.add_mul, ← Nat.add_mul]
      exact Nat.mul_le_mul_right _ stops
    have first : req.startSlot * sectorSize ≤ start * sectorSize :=
      Nat.mul_le_mul_right _ (by omega)
    have rounded : req.logBlockLength * sectorSize ≤
        copyBytes req.logBlockLength := by
      rw [size]
      exact Nat.mul_le_mul_right _ (by omega)
    obtain ⟨chunk, held, touches⟩ :=
      carries.covers
        (slotOffset start + byte - slotOffset req.startSlot) (by
          unfold slotOffset
          omega)
    obtain ⟨shift, -, atSrc, atDst⟩ := carries.inside chunk held
    have landed := of_decide_eq_true (List.all_eq_true.mp copied chunk held)
    obtain ⟨target, same, -, -, known⟩ := sound.landed _ landed
    have here : member = target := Fin.ext same
    rw [here]
    unfold PbaChunk.Touches at touches
    unfold slotOffset at touches atSrc atDst
    refine known offset entry start byte inside found some inEntry ?_ ?_
    · dsimp only
      unfold slotOffset
      omega
    · dsimp only
      unfold slotOffset
      omega
  · cases copied

end

theorem Thread.SoundFor.append
    {n : Nat}
    {thread : Thread}
    {member leader : Fin n}
    {layout : RingLayout}
    {placed : List (Entry × Nat)}
    (holds : thread.SoundFor member leader layout placed)
    (added : List (Entry × Nat)) :
    thread.SoundFor member leader layout (placed ++ added) := by
  cases thread with
  | leaderCopy fi call =>
      obtain ⟨leads, peer, describes⟩ := holds
      exact ⟨leads, peer, describes.append added⟩
  | appendHandler src pending =>
      obtain ⟨other, describes, rest⟩ := holds
      exact ⟨other, describes.append added, rest⟩
  | _ =>
      exact holds

/-- Only the node that leads wins. -/
theorem Fabric.Permits.loses
    {n : Nat}
    {fabric : Fabric n}
    {leader node : Fin n}
    {outcomes : IoOutcomes}
    {act : Act}
    (permits : fabric.Permits leader node outcomes act)
    (follows : node ≠ leader) :
    (fabric.cluster.procs node).node.wins act = false := by
  by_contra wins
  exact follows (permits.wins (by simpa using wins)).1

section

variable {n : Nat} {members : Membership n} {leader : Fin n}
variable {layouts : Fin n → RingLayout} {source : Nat}
variable {fabric next : Fabric n} {node : Fin n} {outcomes : IoOutcomes}
variable {act : Act} {outputs : Outputs}
variable (sound : fabric.Sound members leader layouts source)
variable (moves : fabric.NodeMoves next node outcomes act outputs)

include sound moves

/-- No request goes to the node that leads. -/
theorem Fabric.Sound.noRequest
    (leads : node = leader) :
    ∀ src req, act ≠ .handleAppend src req := by
  rintro src req rfl
  obtain ⟨dst, same, other, -⟩ :=
    sound.sent _ req (moves.moves.append_delivered rfl) rfl
  exact other ((Fin.ext same).symm.trans leads)

/-- The node that leads has no append handler. -/
theorem Fabric.Sound.noFinish
    (leads : node = leader) :
    ∀ index copied, act ≠ .handleAppendFinish index copied := by
  have handler :
      ∀ (index src : Nat) pending,
        (fabric.cluster.node node).threads[index]? ≠
          some (Thread.appendHandler src pending) := by
    intro index src pending found
    obtain ⟨other, -⟩ := sound.threads node _ (List.mem_of_getElem? found)
    exact other leads
  rintro index copied rfl
  have step := moves.moves.step
  generalize next.cluster.node node = after at step
  cases step with
  | appendFinished found _ =>
      exact handler _ _ _ found
  | appendFinishThrew found =>
      exact handler _ _ _ found

/-- A request that is handled is sound, and its data may have arrived. -/
theorem Fabric.Sound.handles
    {src : Nat}
    {req : AppendEntriesRequest}
    (handles : act = .handleAppend src req) :
    node ≠ leader ∧ req.Sound leader (layouts leader) fabric.placed ∧
      (req.dataAlreadyCopied = true →
        req.ArrivedIn (fabric.cluster.procs node).server.io.file
          (layouts leader) fabric.placed) := by
  obtain ⟨dst, same, other, describes, arrived⟩ :=
    sound.sent _ req (moves.moves.append_delivered handles) rfl
  have here : node = dst := Fin.ext same
  rw [here]
  exact ⟨other, describes, arrived⟩

variable (rings : Rings leader layouts source)
variable (permits : fabric.Permits leader node outcomes act)

include permits

include rings in
/-- A follower that moves goes on following. -/
theorem Fabric.Sound.followsOn
    (follows : node ≠ leader) :
    (next.cluster.procs node).FollowsIn (layouts leader) fabric.placed := by
  have following := sound.followers node follows
  have ringSlots :
      (fabric.cluster.procs node).server.ring.ringSlots =
        (layouts node).ringSlots :=
    congrArg RingLayout.ringSlots (sound.laidOut node)
  refine @Process.FollowsIn.step _ _ _ _ leader _ _ following
    (sound.started node)
    moves.moves.stepped permits.stays
    (permits.loses follows)
    (ringSlots ▸ rings.larger node) ?_ ?_
  · intro src req handled
    exact (sound.handles moves handled).2
  · intro index src pending finished found
    obtain ⟨copied, undisturbed, inRing⟩ :=
      permits.finishes index src pending finished found
    obtain ⟨-, describes, newTail, fresh⟩ :=
      sound.threads node _ (List.mem_of_getElem? found)
    have job :
        (fabric.cluster.procs node).copyJob? node index =
          some (↑node, pending.req) := by
      rw [Process.copyJob?, found]
    obtain ⟨target, same, -, arrived⟩ := sound.arrived rings job copied inRing
    have here : node = target := Fin.ext same
    rw [← here] at arrived
    simp only [PendingAppend.undisturbed, Bool.and_eq_true,
      decide_eq_true_eq] at undisturbed
    exact ⟨⟨describes, newTail, fresh, undisturbed.1, undisturbed.2⟩, arrived⟩

/-- Only the node that leads places entries. -/
theorem Fabric.Sound.placed_kept
    (follows : node ≠ leader) :
    next.placed = fabric.placed := by
  have other :=
    Process.step_other moves.moves.stepped permits.stays (sound.started node)
      (permits.loses follows)
      (sound.followers node follows).role
  rw [moves.placed, Process.placedBehind, appendedSince_of_other other,
    List.append_nil]

/-- The ring part of a follower's file stays, whoever moves. -/
theorem Fabric.Sound.image_kept
    {member : Fin n}
    (follows : member ≠ leader) :
    (next.cluster.procs member).server.ringPart =
      (fabric.cluster.procs member).server.ringPart := by
  by_cases here : member = node
  · subst here
    exact (Process.step_image moves.moves.stepped permits.stays
      (permits.loses follows)
      fun _ _ _ => (sound.followers member follows).role).1
  · rw [moves.moves.others member here]

include rings in
/-- The node that leads keeps its records and its image. -/
theorem Fabric.Sound.leadsOn
    (small : next.placed.length + 1 < 2 ^ 64) :
    (next.cluster.procs leader).LeadsIn (layouts leader) next.placed := by
  have leads :
      (fabric.cluster.procs leader).LeadsIn (layouts leader)
        fabric.placed :=
    ⟨sound.leadership, sound.image, sound.laidOut leader⟩
  obtain ⟨length, lies⟩ := rings.source
  by_cases here : node = leader
  · have noRequest := sound.noRequest moves here
    have noFinish := sound.noFinish moves here
    subst here
    rw [moves.placed] at small ⊢
    exact Process.LeadsIn.step moves.moves.stepped permits.stays
      (sound.started node) leads lies.contiguous.tiles permits.succeed
      (fun wins => (permits.wins wins).2) noRequest noFinish small
  · rw [sound.placed_kept moves permits here,
      moves.moves.others leader fun same => here same.symm]
    exact leads

include rings in
/-- What the leader builds for a member. -/
theorem Fabric.Sound.built
    {index : Nat}
    (sends : act = .appendSend index)
    (small : fabric.placed.length + 1 < 2 ^ 64) :
    node = leader ∧
      ∃ dst : Fin n,
        dst ≠ leader ∧
          (fabric.cluster.procs node).threads[index]? =
              some (.appendWorker dst) ∧
            ∀ call,
              ((fabric.cluster.procs node).server.withOutcomes
                  outcomes).builtCall? dst = some call →
              call.req.Sound leader (layouts leader) fabric.placed ∧
                call.req.dataAlreadyCopied = false := by
  obtain ⟨leads, sizes⟩ := permits.sends index sends
  have here : node = leader := by
    by_contra follows
    exact (sound.followers node follows).role leads
  subst here
  refine ⟨rfl, ?_⟩
  obtain ⟨fi, found⟩ :
      ∃ fi,
        (fabric.cluster.procs node).threads[index]? =
          some (.appendWorker fi) := by
    have step := moves.moves.step
    rw [show ({ node, outcomes, act } : NvmeofRaft.Move n).act =
      .appendSend index from sends] at step
    generalize next.cluster.node node = after at step
    cases step with
    | appendHeld found => exact ⟨_, found⟩
    | appendCopying found _ _ => exact ⟨_, found⟩
    | appendSent found _ _ => exact ⟨_, found⟩
    | appendSendThrew found => exact ⟨_, found⟩
  obtain ⟨dst, rfl, other⟩ := sound.threads node _ (List.mem_of_getElem? found)
  refine ⟨dst, other, found, fun call built => ⟨?_, ?_⟩⟩
  · obtain ⟨length, lies⟩ := rings.source
    have describes := (sound.leadership.records leads).describes small
      lies.contiguous (sizes dst found) built
    rwa [(sound.sane.configured node).2.1] at describes
  · exact (builtCall_filled built).1

include rings in
/-- The requests in flight. -/
theorem Fabric.Sound.sentOn
    (small : next.placed.length + 1 < 2 ^ 64) :
    ∀ message req,
      message ∈ next.cluster.net →
      message.payload = .appendRequest req →
      ∃ dst : Fin n,
        message.dst = dst ∧ dst ≠ leader ∧
          req.Sound leader (layouts leader) next.placed ∧
            (req.dataAlreadyCopied = true →
              req.ArrivedIn (next.cluster.procs dst).server.io.file
                (layouts leader) next.placed) := by
  have placed := moves.placed
  rw [Process.placedBehind] at placed
  rw [placed, List.length_append] at small
  have later :
      ∀ {dst : Fin n} {req : AppendEntriesRequest},
        dst ≠ leader →
        req.Sound leader (layouts leader) fabric.placed →
        req.ArrivedIn (fabric.cluster.procs dst).server.io.file
          (layouts leader) fabric.placed →
        req.ArrivedIn (next.cluster.procs dst).server.io.file
          (layouts leader) next.placed := by
    intro dst req other describes arrived
    rw [placed]
    exact (arrived.append describes _).of_ringPart
      (sound.image_kept moves permits other)
  intro message req sent payload
  rcases moves.moves.mem_net.mp sent with old | ⟨output, made, rfl⟩
  · obtain ⟨dst, same, other, describes, arrived⟩ :=
      sound.sent message req old payload
    refine ⟨dst, same, other, ?_, fun copied =>
      later other describes (arrived copied)⟩
    rw [placed]
    exact describes.append _
  · obtain ⟨fi, content⟩ := output
    have payload' : content = .appendRequest req := payload
    subst payload'
    have sends := moves.moves.step.sends made
    generalize act' : ({ node, outcomes, act } : NvmeofRaft.Move n).act = run
      at sends
    change act = run at act'
    cases sends with
    | @appendRequest index fi call found _ _ =>
        obtain ⟨rfl, dst, other, worker, built⟩ :=
          sound.built moves rings permits act' (by omega)
        obtain ⟨call', calls, same⟩ :=
          (Process.step_builds worker (act' ▸ moves.moves.stepped)).1 _ made
        rw [Prod.mk.injEq, Payload.appendRequest.injEq] at same
        obtain ⟨rfl, same⟩ := same
        obtain ⟨describes, fresh⟩ := built call' calls
        rw [← same] at describes fresh
        refine ⟨dst, rfl, other, ?_, fun copied => ?_⟩
        · rw [placed]
          exact describes.append _
        · rw [fresh] at copied
          cases copied
    | @copiedRequest index fi call found =>
        obtain ⟨copied, inRing⟩ := permits.copies index fi call act' found
        have found' :
            (fabric.cluster.procs node).threads[index]? =
              some (.leaderCopy fi call) :=
          found
        have job :
            (fabric.cluster.procs node).copyJob? node index =
              some (fi, call.req) := by
          rw [Process.copyJob?, found']
        obtain ⟨dst, rfl, other, arrived⟩ :=
          sound.arrived rings job copied inRing
        obtain ⟨-, -, describes⟩ :=
          sound.threads node _ (List.mem_of_getElem? found)
        have describes' :
            call.copied.req.DescribesPlaced leader (layouts leader)
              fabric.placed :=
          ⟨describes.data, describes.device, describes.counted,
            describes.within, describes.source, describes.inRing,
            describes.fits, describes.slots, describes.metas⟩
        refine ⟨dst, rfl, other, ?_, fun _ =>
          later other (fun _ => describes') arrived⟩
        rw [placed]
        exact fun _ => describes'.append _

include rings in
/-- The threads of the nodes. -/
theorem Fabric.Sound.threadsOn
    (small : next.placed.length + 1 < 2 ^ 64) :
    ∀ member thread,
      thread ∈ (next.cluster.procs member).threads →
      thread.SoundFor member leader (layouts leader) next.placed := by
  have placed := moves.placed
  rw [Process.placedBehind] at placed
  have small' := small
  rw [placed, List.length_append] at small'
  have old :
      ∀ member thread,
        thread ∈ (fabric.cluster.procs member).threads →
        thread.SoundFor member leader (layouts leader) next.placed := by
    intro member thread held
    rw [placed]
    exact (sound.threads member thread held).append _
  intro member thread held
  by_cases here : member = node
  · subst here
    have peer :
        ∀ fi ∈ (fabric.cluster.node member).view.peers,
          ∃ dst : Fin n, fi = dst ∧ dst ≠ member := by
      intro fi listed
      obtain ⟨-, index, length, -⟩ := sound.sane.view member
      have other := View.ne_of_mem_peers listed
      rw [index] at other
      have inside : fi < n := by
        rw [View.peers, List.mem_filter, List.mem_range, length] at listed
        exact listed.1
      exact ⟨⟨fi, inside⟩, rfl, fun same => other (congrArg Fin.val same)⟩
    rcases moves.moves.step.thread_origin held with before | new
    · exact old member thread before
    · generalize act' :
        ({ node := member, outcomes, act } : NvmeofRaft.Move n).act = run
          at new
      change act = run at act'
      cases new with
      | heartbeatWorker listed _ =>
          exact peer _ listed
      | commandWorker listed _ =>
          exact peer _ listed
      | @leaderCopy fi index call _ filled _ _ =>
          obtain ⟨rfl, dst, other, worker, built⟩ :=
            sound.built moves rings permits act' (by omega)
          rcases (Process.step_builds worker
              (act' ▸ moves.moves.stepped)).2 _ held with
            before | ⟨call', calls, same | same⟩
          · exact old member _ before
          · obtain ⟨copy, some⟩ := same
            obtain ⟨rfl, rfl⟩ := Thread.leaderCopy.inj copy
            obtain ⟨describes, -⟩ := built call calls
            have data : 0 < call.req.numEntries := by
              rw [filled.numEntries]
              simpa [AppendCall.hasEntries] using some
            rw [placed]
            exact ⟨rfl, ⟨dst, rfl, other⟩, (describes data).append _⟩
          · cases same
      | @appendHandler src req accepts brings _ =>
          obtain ⟨other, describes, -⟩ := sound.handles moves act'
          rw [placed]
          exact ⟨other, (describes brings.1).append _, rfl, brings.2.2⟩
      | _ =>
          exact trivial
  · rw [moves.moves.others member here] at held
    exact old member thread held

/-- The chunks that have been copied. -/
theorem Fabric.Sound.landedOn :
    ∀ landed ∈ next.landed,
      ∃ dst : Fin n,
        landed.dst = dst ∧ dst ≠ leader ∧
          landed.req.DescribesPlaced leader (layouts leader) next.placed ∧
            landed.In (next.cluster.procs dst).server.io.file source
              next.placed := by
  intro landed held
  rw [moves.landed] at held
  obtain ⟨dst, same, other, describes, holds⟩ := sound.landed landed held
  rw [moves.placed, Process.placedBehind]
  exact ⟨dst, same, other, describes.append _,
    (holds.append describes _).of_ringPart
      (sound.image_kept moves permits other)⟩

include rings in
/-- A section of a node keeps what the runs of one leader keep. -/
theorem Fabric.Sound.nodeStep
    (small : next.placed.length + 1 < 2 ^ 64) :
    next.Sound members leader layouts source := by
  have leads := sound.leadsOn moves rings permits small
  have placed := moves.placed
  rw [Process.placedBehind] at placed
  refine ⟨moves.moves.sane sound.sane, fun member => ?_, fun member => ?_,
    leads.leadership, leads.image, fun member follows => ?_,
    sound.sentOn moves rings permits small,
    sound.threadsOn moves rings permits small,
    sound.landedOn moves permits⟩
  · by_cases here : member = node
    · subst here
      exact @Process.Started.step _ _ { outcomes, act } (sound.started member)
        (Option.map_eq_some_iff.mpr ⟨_, moves.moves.stepped, rfl⟩)
    · rw [moves.moves.others member here]
      exact sound.started member
  · by_cases leader' : member = leader
    · rw [leader']
      exact leads.laidOut
    · by_cases here : member = node
      · subst here
        exact (Process.step_image moves.moves.stepped permits.stays
          (permits.loses leader')
          fun _ _ _ => (sound.followers member leader').role).2.trans
            (sound.laidOut member)
      · rw [moves.moves.others member here]
        exact sound.laidOut member
  · by_cases here : member = node
    · subst here
      rw [placed]
      exact (sound.followsOn moves rings permits follows).append _
    · rw [moves.moves.others member here, placed]
      exact (sound.followers member follows).append _

end

/-- A step that the run allows keeps what such runs keep. -/
theorem Fabric.Sound.step
    {n : Nat}
    {members : Membership n}
    {leader : Fin n}
    {layouts : Fin n → RingLayout}
    {source : Nat}
    {fabric next : Fabric n}
    {move : Fabric.Move n}
    (sound : fabric.Sound members leader layouts source)
    (rings : Rings leader layouts source)
    (scope : fabric.oneLeader leader move = true)
    (keeps : fabric.keepsCommands move = true)
    (stepped : fabric.step move = some next)
    (small : next.placed.length + 1 < 2 ^ 64) :
    next.Sound members leader layouts source := by
  cases move with
  | node move =>
      obtain ⟨awaits, outputs, moves⟩ :=
        Fabric.stepNode_moves sound.sane stepped
      exact sound.nodeStep moves rings (Fabric.permits awaits scope keeps)
        small
  | copy owner thread chunk =>
      exact sound.stepCopy rings keeps stepped

end NvmeofRaft
