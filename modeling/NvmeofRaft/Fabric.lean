import NvmeofRaft.Cluster
import NvmeofRaft.EntryMetas
import NvmeofRaft.EntryReadBack

namespace NvmeofRaft

/-!
# The cluster with its volumes

The nodes, the messages and the bytes on the volumes of the members.  A ring
file lies on a volume where its extents put it.  A block copy is carried out
chunk by chunk, in any order and between any two sections of the nodes, while
the thread that has asked for it waits; a chunk brings the bytes that the source
volume holds at that moment.
-/

/-- The byte of the ring file that lies at a device address. -/
def logicalAt
    (extents : List Extent)
    (address : Nat) :
    Option Nat :=
  (extents.find? fun extent =>
    decide (extent.physical ≤ address) &&
      decide (address < extent.physical + extent.length)).map fun extent =>
    extent.logical + (address - extent.physical)

/-- A chunk that has been copied to a member for a request. -/
structure LandedChunk where
  dst : Nat
  req : AppendEntriesRequest
  chunk : PbaChunk
  deriving DecidableEq

/--
The cluster, the bytes of the volumes outside the ring files, the chunks copied
so far, and a history: the entries that leaders have appended, each with the
slot where `persist_circular` has put it.
-/
structure Fabric (n : Nat) where
  cluster : Cluster n
  outside : Fin n → ByteImage := fun _ => ByteImage.zeros
  landed : List LandedChunk := []
  placed : List (Entry × Nat) := []

/-- A step: a section of a node, or one chunk of a copy that a thread awaits. -/
inductive Fabric.Move (n : Nat) where
  | node (move : NvmeofRaft.Move n)
  | copy (owner : Fin n) (thread chunk : Nat)

/-- The volume of a member. -/
def Fabric.volume
    {n : Nat}
    (fabric : Fabric n)
    (member : Fin n) :
    ByteImage := fun address =>
  let io := (fabric.cluster.procs member).server.io
  match logicalAt io.extents address with
  | some logical => io.file logical
  | none => fabric.outside member address

/-- The volumes by cluster index. -/
def Fabric.devices
    {n : Nat}
    (fabric : Fabric n) :
    Devices := fun index =>
  if member : index < n then fabric.volume ⟨index, member⟩ else ByteImage.zeros

/-- What the ring file of a node shows of its volume. -/
def Process.reread
    (proc : Process)
    (volume : ByteImage) :
    Process :=
  let io := proc.server.io
  { proc with
    server := { proc.server with
      io := { io with
        file := fun logical =>
          match physicalAt io.extents logical with
          | some address => volume address
          | none => io.file logical } } }

/-- Copy one chunk to the volume of a member. -/
def Fabric.copyChunk
    {n : Nat}
    (fabric : Fabric n)
    (srcDev : Nat)
    (dst : Fin n)
    (chunk : PbaChunk) :
    Fabric n :=
  let volume := (fabric.devices.copyChunk srcDev dst chunk) dst
  { fabric with
    cluster := { fabric.cluster with
      procs := Function.update fabric.cluster.procs dst
        ((fabric.cluster.procs dst).reread volume) }
    outside := Function.update fabric.outside dst volume }

/-- What `read_entry_direct` gives for a slot of a node. -/
def Fabric.loadFrom
    {n : Nat}
    (fabric : Fabric n)
    (member : Fin n)
    (slot : Nat) :
    Option (List UInt8) :=
  let layout := (fabric.cluster.procs member).server.layout
  match layout.readEntryDirect (fabric.volume member) slot with
  | .ok found => some found.1.command
  | .error _ => none

/-- The member that a waiting thread copies to, and the request. -/
def Process.copyJob?
    (proc : Process)
    (self thread : Nat) :
    Option (Nat × AppendEntriesRequest) :=
  match proc.threads[thread]? with
  | some (.appendHandler _ pending) => some (self, pending.req)
  | some (.leaderCopy fi call) => some (fi, call.req)
  | _ => none

/-- The chunks of the copy, cut by the node that asks for it. -/
def Server.copyChunks
    (server : Server)
    (req : AppendEntriesRequest) :
    Except CopyExn (List PbaChunk) :=
  server.layout.doPbaCopy req.leaderPbaSrc req.logBlockLength req.startSlot

/-- Every chunk of the copy has been made. -/
def Fabric.copied
    {n : Nat}
    (fabric : Fabric n)
    (owner : Fin n)
    (thread : Nat) :
    Bool :=
  let proc := fabric.cluster.procs owner
  match proc.copyJob? owner thread with
  | some (dst, req) =>
      match proc.server.copyChunks req with
      | .ok chunks =>
          chunks.all fun chunk => decide ({ dst, req, chunk } ∈ fabric.landed)
      | .error _ => false
  | none => false

/-- A copy succeeds only once it has been made. -/
def Fabric.awaits
    {n : Nat}
    (fabric : Fabric n)
    (node : Fin n) :
    Act → Bool
  | .handleAppendFinish index true => fabric.copied node index
  | .leaderCopied index true => fabric.copied node index
  | _ => true

/-- Deferred entries are loaded from the node's own volume. -/
def Fabric.loading
    {n : Nat}
    (fabric : Fabric n)
    (node : Fin n) :
    Act → Act
  | .main expired _ => .main expired (fabric.loadFrom node)
  | act => act

/-- The entries that a leader has appended in a step, with their slots. -/
def Server.appendedSince
    (after before : Server) :
    List (Entry × Nat) :=
  if after.raft.state = .leader then
    (List.range
      (after.ring.tailLogIndex - before.ring.tailLogIndex)).map fun offset =>
        let logIdx := before.ring.tailLogIndex + offset
        (after.logAt logIdx,
          ((after.ring.logSlotMap.lookup logIdx).map SlotRecord.start).getD 0)
  else
    []

/-- A section of a node. -/
def Fabric.stepNode
    {n : Nat}
    (fabric : Fabric n)
    (move : NvmeofRaft.Move n) :
    Option (Fabric n) :=
  if fabric.awaits move.node move.act then
    (fabric.cluster.step
      { move with act := fabric.loading move.node move.act }).map fun next =>
        { fabric with
          cluster := next
          placed := fabric.placed ++
            (next.procs move.node).server.appendedSince
              (fabric.cluster.procs move.node).server }
  else
    none

/-- One chunk of a copy. -/
def Fabric.stepCopy
    {n : Nat}
    (fabric : Fabric n)
    (owner : Fin n)
    (thread chunk : Nat) :
    Option (Fabric n) :=
  let proc := fabric.cluster.procs owner
  match proc.copyJob? owner thread with
  | some (dst, req) =>
      match proc.server.copyChunks req with
      | .ok chunks =>
          match chunks[chunk]? with
          | some cut =>
              if member : dst < n then
                some { fabric.copyChunk req.leaderDevIndex ⟨dst, member⟩ cut
                  with landed := { dst, req, chunk := cut } :: fabric.landed }
              else
                none
          | none => none
      | .error _ => none
  | none => none

/-- One step of the fabric. -/
def Fabric.step
    {n : Nat}
    (fabric : Fabric n) :
    Fabric.Move n → Option (Fabric n)
  | .node move => fabric.stepNode move
  | .copy owner thread chunk => fabric.stepCopy owner thread chunk

/-- The fabric after every node has started, with any bytes elsewhere. -/
def Membership.fabric
    {n : Nat}
    (members : Membership n)
    (settings : Fin n → Settings)
    (outside : Fin n → ByteImage) :
    Fabric n where
  cluster := members.start settings
  outside := outside

end NvmeofRaft
