import Mathlib.Logic.Function.Basic
import NvmeofRaft.Lifecycle

namespace NvmeofRaft

/-!
# The cluster

The nodes with the messages sent so far.  A message may be delivered late, out
of order or never; a message is not removed when it is delivered.  An answer
reaches only a call that waits for it.
-/

/-- The membership: one distinct non-zero id for every cluster index. -/
structure Membership (n : Nat) where
  ids : Fin n → Nat
  distinct : Function.Injective ids
  nonzero : ∀ node, ids node ≠ 0

/-- A message between two cluster indices. -/
structure Message where
  src : Nat
  dst : Nat
  payload : Payload
  deriving Repr, DecidableEq

/-- The settings a node is started with. -/
structure Settings where
  numPages : Nat := 2
  logTrimThreshold : Nat := 8192
  maxAeBatch : Nat := defaultMaxAeBatch
  maxAeBatchBytes : Nat := defaultMaxAeBatchBytes
  replicationMode : ReplicationMode := .destinationSide
  extents : List Extent

/-- The nodes and the messages. -/
structure Cluster (n : Nat) where
  procs : Fin n → Process
  net : List Message := []

/-- The constructed `Server` of a node, before `init_storage`. -/
def Membership.server
    {n : Nat}
    (members : Membership n)
    (settings : Fin n → Settings)
    (node : Fin n) :
    Server where
  raft := {
    id := members.ids node
    cluster := List.ofFn fun peer => { id := members.ids peer }
    clusterIndex := node
  }
  ring := ({ logTrimThreshold := (settings node).logTrimThreshold } :
    RingLog).configure (settings node).numPages
  maxAeBatch := (settings node).maxAeBatch
  maxAeBatchBytes := (settings node).maxAeBatchBytes
  replicationMode := (settings node).replicationMode

/--
A node after its first start on an empty ring file.  An `init_storage` that
throws leaves the node halted.
-/
def Membership.boot
    {n : Nat}
    (members : Membership n)
    (settings : Fin n → Settings)
    (node : Fin n) :
    Process :=
  (({ server := members.server settings node } : Process).startUp {}
    { fiemap := some (settings node).extents }).1

/-- The cluster after every node has started. -/
def Membership.start
    {n : Nat}
    (members : Membership n)
    (settings : Fin n → Settings) :
    Cluster n where
  procs := members.boot settings

/-- A step of the cluster: which node runs which section. -/
structure Move (n : Nat) where
  node : Fin n
  outcomes : IoOutcomes := {}
  act : Act

/-- Whether a message is in the network. -/
def Cluster.sent
    {n : Nat}
    (cluster : Cluster n)
    (src dst : Nat)
    (payload : Payload) :
    Bool :=
  decide ({ src := src, dst := dst, payload := payload } ∈ cluster.net)

/--
Whether the network can hand the act its input: a request is delivered to its
destination, and an answer to the call it answers.
-/
def Cluster.delivers
    {n : Nat}
    (cluster : Cluster n)
    (node : Fin n) :
    Act → Bool
  | .handleVote src req =>
      cluster.sent src node (.voteRequest req)
  | .handleAppend src req =>
      cluster.sent src node (.appendRequest req)
  | .voteReply index rsp =>
      match (cluster.procs node).threads[index]? with
      | some (.voteCall peerIndex req) =>
          cluster.sent peerIndex node (.voteResponse req rsp)
      | _ => false
  | .appendReply index rsp =>
      match (cluster.procs node).threads[index]? with
      | some (.appendCall fi call) =>
          cluster.sent fi node (.appendResponse call.req rsp)
      | _ => false
  | _ => true

/-- One step of the cluster. -/
def Cluster.step
    {n : Nat}
    (cluster : Cluster n)
    (move : Move n) :
    Option (Cluster n) :=
  if cluster.delivers move.node move.act then
    match (cluster.procs move.node).step move.outcomes move.act with
    | some (proc, outputs) =>
        some {
          procs := Function.update cluster.procs move.node proc
          net := (outputs.map fun output =>
            { src := move.node, dst := output.1, payload := output.2 }) ++
              cluster.net
        }
    | none => none
  else
    none

/-- Three members with the ids 1, 2 and 3. -/
def threeMembers : Membership 3 where
  ids := fun node => node + 1
  distinct := by
    intro first second same
    exact Fin.ext (Nat.succ.inj same)
  nonzero := by
    intro node
    exact Nat.succ_ne_zero node

/-- The member with the id 1. -/
def firstMember : Fin 3 :=
  0

/-- The member with the id 2. -/
def secondMember : Fin 3 :=
  1

/-- The member with the id 3. -/
def thirdMember : Fin 3 :=
  2

/-- A ring file of two pages in one extent. -/
def smallRing : Settings where
  extents := [{ logical := 0, physical := 4096, length := 8192 }]

/-- What the kernel answers to a start-up on that ring file. -/
def smallRingAnswers : KernelAnswers where
  fiemap := some smallRing.extents

/-- No deferred entry can be read from the device. -/
def nothingLoaded (_slot : Nat) : Option (List UInt8) :=
  none

/-- The next section of `main_loop`. -/
def mainAct (expired : Bool) : Act :=
  .main expired nothingLoaded

end NvmeofRaft
