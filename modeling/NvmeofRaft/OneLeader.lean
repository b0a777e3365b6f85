import NvmeofRaft.CopiedImage
import NvmeofRaft.FollowerImage

namespace NvmeofRaft

/-!
# Runs of one leader

The runs of one leadership and the steps that take a command away from a
follower: metadata that misplace an entry, a copy that runs past the ring end,
goes to another layout or brings slots that the leader has used again, and a
handler whose tail has moved while it was copying.
-/

variable {n : Nat}

/--
The step belongs to a run of one leadership of the given node: no I/O call
fails, no node restarts, nobody else wins, and only the leader builds requests.
-/
def Fabric.oneLeader
    (leader : Fin n)
    (fabric : Fabric n) :
    Fabric.Move n → Bool
  | .copy _ _ _ => true
  | .node move =>
      let proc := fabric.cluster.procs move.node
      move.outcomes.succeed && !move.act.isRestart &&
        (!proc.node.wins move.act ||
          (decide (move.node = leader) && fabric.placed.isEmpty)) &&
        match move.act with
        | .appendSend _ => decide (proc.server.raft.state = .leader)
        | _ => true

/-- The slots of a copy, rounded up to whole pages, end before the ring does. -/
def RingLayout.holdsCopy
    (layout : RingLayout)
    (req : AppendEntriesRequest) :
    Bool :=
  decide (req.startSlot * sectorSize + copyBytes req.logBlockLength ≤
    layout.ringSlots * sectorSize)

/-- The member would cut the copy into the same chunks. -/
def Fabric.inPlace
    (fabric : Fabric n)
    (owner : Fin n)
    (dst : Nat)
    (req : AppendEntriesRequest) :
    Bool :=
  if member : dst < n then
    match (fabric.cluster.procs owner).server.copyChunks req,
      (fabric.cluster.procs ⟨dst, member⟩).server.copyChunks req with
    | .ok chunks, .ok same => decide (chunks = same)
    | _, _ => false
  else
    false

/-- The slots of the item and of the copy meet. -/
def meetsCopy
    (req : AppendEntriesRequest)
    (item : Entry × Nat) :
    Bool :=
  decide (slotOffset item.2 <
      slotOffset req.startSlot + copyBytes req.logBlockLength) &&
    decide (slotOffset req.startSlot < slotOffset (item.2 + item.1.needed))

/--
No placed entry that the copy meets has been covered by a later one.  Slot 0
holds nothing that is read back.
-/
def bringsCurrent
    (placed : List (Entry × Nat))
    (req : AppendEntriesRequest) :
    Bool :=
  (List.range placed.length).all fun position =>
    match placed[position]? with
    | some item =>
        decide (item.2 = 0) || !meetsCopy req item ||
          decide (Uncovered placed position item)
    | none => true

/-- The handler finds the tail as its first section has left it. -/
def PendingAppend.undisturbed
    (pending : PendingAppend)
    (server : Server) :
    Bool :=
  decide (server.ring.tailLogIndex =
      pending.newTail + pending.skipEntries) &&
    decide (server.ring.tailSlot = pending.req.startSlot)

/-- The step takes no placed command away from a follower. -/
def Fabric.keepsCommands
    (fabric : Fabric n) :
    Fabric.Move n → Bool
  | .copy owner thread _ =>
      let proc := fabric.cluster.procs owner
      match proc.copyJob? owner thread with
      | some (dst, req) =>
          proc.server.layout.holdsCopy req && fabric.inPlace owner dst req &&
            bringsCurrent fabric.placed req
      | none => true
  | .node move =>
      let proc := fabric.cluster.procs move.node
      match move.act with
      | .appendSend index =>
          match proc.threads[index]? with
          | some (.appendWorker fi) =>
              (proc.server.withOutcomes move.outcomes).sendsSizes fi
          | _ => true
      | .leaderCopied index true =>
          match proc.copyJob? move.node index with
          | some (_, req) => proc.server.layout.holdsCopy req
          | none => true
      | .handleAppendFinish index true =>
          match proc.threads[index]? with
          | some (.appendHandler _ pending) =>
              pending.undisturbed proc.server &&
                proc.server.layout.holdsCopy pending.req
          | _ => true
      | _ => true

/-- The entry is at its slots, unless it is at slot 0. -/
def Shows
    (file : ByteImage)
    (layout : RingLayout)
    (logIdx : Nat)
    (item : Entry × Nat) : Prop :=
  item.2 ≠ 0 →
    item.2 + item.1.needed ≤ layout.ringSlots ∧
      HoldsEntry file item.1 logIdx item.2

/-- The entries of a request are in the file. -/
def AppendEntriesRequest.ArrivedIn
    (req : AppendEntriesRequest)
    (file : ByteImage)
    (layout : RingLayout)
    (placed : List (Entry × Nat)) : Prop :=
  ∀ offset item,
    offset < req.numEntries →
    placed[req.prevLogIndex + offset]? = some item →
    Shows file layout (req.prevLogIndex + offset + 1) item

/-- The part of the request's entries that the chunk carries is in the file. -/
def LandedChunk.In
    (landed : LandedChunk)
    (file : ByteImage)
    (source : Nat)
    (placed : List (Entry × Nat)) : Prop :=
  ∀ offset entry start position,
    offset < landed.req.numEntries →
    placed[landed.req.prevLogIndex + offset]? = some (entry, start) →
    start ≠ 0 →
    position < entry.needed * sectorSize →
    landed.chunk.src ≤ source + (slotOffset start + position) →
    source + (slotOffset start + position) <
      landed.chunk.src + landed.chunk.nbytes →
    file (slotOffset start + position) =
      (encodeEntry entry entry.needed
        (landed.req.prevLogIndex + offset + 1)).getD position 0

/-- The node that leads in the run: before, in and behind its leadership. -/
inductive Process.Leadership
    (proc : Process)
    (layout : RingLayout) :
    List (Entry × Nat) → Prop where
  | before :
      proc.server.raft.state ≠ .leader →
      (proc.halted = false →
        proc.server.entryView.Defers [] ∧
          proc.server.ring.logSlotMap.entries = []) →
      Leadership proc layout []
  | during
      {placed : List (Entry × Nat)} :
      placed ≠ [] →
      proc.Records layout placed →
      Leadership proc layout placed
  | behind
      {placed : List (Entry × Nat)} :
      placed ≠ [] →
      proc.server.raft.state ≠ .leader →
      Leadership proc layout placed

/-- A follower: deferred entries whose commands are in its ring file. -/
structure Process.FollowsIn
    (proc : Process)
    (layout : RingLayout)
    (placed : List (Entry × Nat)) : Prop where
  role : proc.server.raft.state ≠ .leader
  defers : proc.halted = false → proc.server.entryView.Defers placed
  shows :
    proc.halted = false →
    ∀ position item,
      placed[position]? = some item →
      position + 1 < proc.server.ring.tailLogIndex →
      Shows proc.server.io.file layout (position + 1) item

/-- What a thread of a node has to do with the requests. -/
def Thread.SoundFor
    (thread : Thread)
    (member leader : Fin n)
    (layout : RingLayout)
    (placed : List (Entry × Nat)) : Prop :=
  match thread with
  | .appendWorker fi => ∃ dst : Fin n, fi = dst ∧ dst ≠ member
  | .leaderCopy fi call =>
      member = leader ∧ (∃ dst : Fin n, fi = dst ∧ dst ≠ leader) ∧
        call.req.DescribesPlaced leader layout placed
  | .appendHandler _ pending =>
      member ≠ leader ∧ pending.req.DescribesPlaced leader layout placed ∧
        pending.newTail = pending.req.prevLogIndex + 1 ∧
          pending.skipEntries < pending.req.numEntries
  | _ => True

/-- What the steps of a run of one leadership keep. -/
structure Fabric.Sound
    (members : Membership n)
    (leader : Fin n)
    (layouts : Fin n → RingLayout)
    (source : Nat)
    (fabric : Fabric n) : Prop where
  sane : fabric.cluster.Sane members
  started : ∀ member, (fabric.cluster.procs member).Started
  laidOut :
    ∀ member, (fabric.cluster.procs member).server.layout = layouts member
  leadership :
    (fabric.cluster.procs leader).Leadership (layouts leader) fabric.placed
  image :
    HoldsPlaced (fabric.cluster.procs leader).server.io.file fabric.placed
  followers :
    ∀ member,
      member ≠ leader →
      (fabric.cluster.procs member).FollowsIn (layouts leader) fabric.placed
  sent :
    ∀ message req,
      message ∈ fabric.cluster.net →
      message.payload = .appendRequest req →
      ∃ dst : Fin n,
        message.dst = dst ∧ dst ≠ leader ∧
          req.Sound leader (layouts leader) fabric.placed ∧
            (req.dataAlreadyCopied = true →
              req.ArrivedIn (fabric.cluster.procs dst).server.io.file
                (layouts leader) fabric.placed)
  threads :
    ∀ member thread,
      thread ∈ (fabric.cluster.procs member).threads →
      thread.SoundFor member leader (layouts leader) fabric.placed
  landed :
    ∀ landed ∈ fabric.landed,
      ∃ dst : Fin n,
        landed.dst = dst ∧ dst ≠ leader ∧
          landed.req.DescribesPlaced leader (layouts leader) fabric.placed ∧
            landed.In (fabric.cluster.procs dst).server.io.file source
              fabric.placed

/--
The rings of a run: each lies in one extent of whole sectors, the leader's
from the address `source` on, and none has fewer slots than the leader's.
-/
structure Rings
    (leader : Fin n)
    (layouts : Fin n → RingLayout)
    (source : Nat) : Prop where
  lies :
    ∀ member,
      ∃ physical length,
        (layouts member).LiesAt physical length ∧ sectorSize ∣ physical
  source : ∃ length, (layouts leader).LiesAt source length
  larger :
    ∀ member, (layouts leader).ringSlots ≤ (layouts member).ringSlots

end NvmeofRaft
