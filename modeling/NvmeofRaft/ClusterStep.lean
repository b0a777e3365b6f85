import NvmeofRaft.BallotEffect

namespace NvmeofRaft

/-!
# Steps of the cluster

A step of the cluster is a step of one node: the other nodes stay as they are,
and the messages of the node are added to the network.
-/

section

variable {n : Nat}

/-- The node of a member. -/
def Cluster.node
    (cluster : Cluster n)
    (member : Fin n) :
    Node :=
  (cluster.procs member).node

/-- The messages that a node sends. -/
def addressed
    (member : Fin n)
    (outputs : Outputs) :
    List Message :=
  outputs.map fun output =>
    { src := member, dst := output.1, payload := output.2 }

/-- What a step of the cluster does. -/
structure Cluster.Moves
    (cluster : Cluster n)
    (move : Move n)
    (next : Cluster n)
    (outputs : Outputs) : Prop where
  delivers : cluster.delivers move.node move.act = true
  step :
    (cluster.node move.node).Step (cluster.procs move.node).mapped move.act
      (next.node move.node) outputs
  others :
    ∀ member, member ≠ move.node → next.procs member = cluster.procs member
  net : next.net = addressed move.node outputs ++ cluster.net
  stepped :
    (cluster.procs move.node).step move.outcomes move.act =
      some (next.procs move.node, outputs)

/-- What every node keeps: it is well-formed and knows who it is. -/
structure Cluster.Sane
    (members : Membership n)
    (cluster : Cluster n) : Prop where
  wellformed : ∀ member, (cluster.procs member).Wellformed
  configured :
    ∀ member,
      (cluster.procs member).server.raft.id = members.ids member ∧
        (cluster.procs member).server.raft.clusterIndex = member ∧
          (cluster.procs member).server.raft.cluster.length = n

/--
A step of the cluster moves one node and puts its output into the network.
-/
theorem Cluster.step_moves
    {members : Membership n}
    {cluster next : Cluster n}
    {move : Move n}
    (sane : cluster.Sane members)
    (stepped : cluster.step move = some next) :
    ∃ outputs, cluster.Moves move next outputs := by
  unfold Cluster.step at stepped
  split at stepped
  · rename_i delivers
    cases ran : (cluster.procs move.node).step move.outcomes move.act with
    | none =>
        rw [ran] at stepped
        cases stepped
    | some result =>
        obtain ⟨proc, outputs⟩ := result
        rw [ran] at stepped
        simp only [Option.some.injEq] at stepped
        have sameProc : next.procs move.node = proc := by
          rw [← stepped]
          exact Function.update_self _ _ _
        have does := Process.step_does (sane.wellformed move.node) ran
        refine ⟨outputs, delivers, ?_, ?_, ?_, ?_⟩
        · rw [Cluster.node, Cluster.node, sameProc]
          exact does
        · intro member other
          rw [← stepped]
          exact Function.update_of_ne other _ _
        · rw [← stepped]
          rfl
        · rw [sameProc]
          exact ran
  · cases stepped

namespace Cluster.Moves

variable {cluster next : Cluster n} {move : Move n} {outputs : Outputs}

/-- The other nodes stay as they are. -/
theorem node_other
    (moves : cluster.Moves move next outputs)
    {member : Fin n}
    (other : member ≠ move.node) :
    next.node member = cluster.node member := by
  rw [Cluster.node, moves.others member other]
  rfl

/-- The network holds what it held and what the node has sent. -/
theorem mem_net
    (moves : cluster.Moves move next outputs)
    {message : Message} :
    message ∈ next.net ↔
      message ∈ cluster.net ∨
        ∃ output,
          output ∈ outputs ∧
            message =
              { src := move.node, dst := output.1, payload := output.2 } := by
  rw [moves.net, List.mem_append, addressed, List.mem_map]
  constructor
  · rintro (⟨output, sent, rfl⟩ | old)
    · exact Or.inr ⟨output, sent, rfl⟩
    · exact Or.inl old
  · rintro (old | ⟨output, sent, rfl⟩)
    · exact Or.inr old
    · exact Or.inl ⟨output, sent, rfl⟩

/-- A vote request that is handled has been sent to the node. -/
theorem vote_delivered
    (moves : cluster.Moves move next outputs)
    {src : Nat}
    {req : RequestVoteRequest}
    (act : move.act = .handleVote src req) :
    { src := src, dst := move.node, payload := .voteRequest req } ∈
      cluster.net := by
  have delivers := moves.delivers
  rw [act] at delivers
  simpa [Cluster.delivers, Cluster.sent] using delivers

/-- An append request that is handled has been sent to the node. -/
theorem append_delivered
    (moves : cluster.Moves move next outputs)
    {src : Nat}
    {req : AppendEntriesRequest}
    (act : move.act = .handleAppend src req) :
    { src := src, dst := move.node, payload := .appendRequest req } ∈
      cluster.net := by
  have delivers := moves.delivers
  rw [act] at delivers
  simpa [Cluster.delivers, Cluster.sent] using delivers

/-- An answer to a vote request has been sent by the peer it went to. -/
theorem voteReply_delivered
    (moves : cluster.Moves move next outputs)
    {index peerIndex : Nat}
    {req : RequestVoteRequest}
    {rsp : RequestVoteResponse}
    (act : move.act = .voteReply index rsp)
    (found :
      (cluster.node move.node).threads[index]? =
        some (.voteCall peerIndex req)) :
    { src := peerIndex, dst := move.node,
      payload := .voteResponse req rsp } ∈ cluster.net := by
  have delivers := moves.delivers
  have found' : (cluster.procs move.node).threads[index]? =
      some (.voteCall peerIndex req) := found
  rw [act] at delivers
  simpa [Cluster.delivers, Cluster.sent, found'] using delivers

/-- An answer to an append request has been sent by the peer it went to. -/
theorem appendReply_delivered
    (moves : cluster.Moves move next outputs)
    {index fi : Nat}
    {call : AppendCall}
    {rsp : AppendEntriesResponse}
    (act : move.act = .appendReply index rsp)
    (found :
      (cluster.node move.node).threads[index]? =
        some (.appendCall fi call)) :
    { src := fi, dst := move.node,
      payload := .appendResponse call.req rsp } ∈ cluster.net := by
  have delivers := moves.delivers
  have found' : (cluster.procs move.node).threads[index]? =
      some (.appendCall fi call) := found
  rw [act] at delivers
  simpa [Cluster.delivers, Cluster.sent, found'] using delivers

/-- Every move keeps the cluster sane. -/
theorem sane
    {members : Membership n}
    (moves : cluster.Moves move next outputs)
    (sane : cluster.Sane members) :
    next.Sane members := by
  have same := Process.step_configuration moves.stepped
  refine ⟨fun member => ?_, fun member => ?_⟩
  · by_cases here : member = move.node
    · subst here
      exact Process.step_wellformed (sane.wellformed _) moves.stepped
    · rw [moves.others member here]
      exact sane.wellformed member
  · by_cases here : member = move.node
    · subst here
      obtain ⟨id, index, length⟩ := sane.configured move.node
      refine ⟨(congrArg Configuration.id same).trans id,
        (congrArg Configuration.clusterIndex same).trans index, ?_⟩
      have members := congrArg (fun config => config.memberIds.length) same
      simp only [Server.configuration, List.length_map] at members
      exact members.trans length
    · rw [moves.others member here]
      exact sane.configured member

end Cluster.Moves

/-- A cluster that has just booted is sane. -/
theorem start_sane
    (members : Membership n)
    (settings : Fin n → Settings) :
    (members.start settings).Sane members := by
  refine ⟨fun member => boot_wellformed members settings member,
    fun member => ?_⟩
  have same := startUp_configuration
    ({ server := members.server settings member } : Process) {}
    { fiemap := some (settings member).extents }
  have length := congrArg (fun config => config.memberIds.length) same
  refine ⟨congrArg Configuration.id same,
    congrArg Configuration.clusterIndex same, ?_⟩
  simp only [Server.configuration, List.length_map, Membership.server,
    List.length_ofFn] at length
  exact length

theorem Cluster.Sane.view
    {members : Membership n}
    {cluster : Cluster n}
    (sane : cluster.Sane members)
    (member : Fin n) :
    (cluster.node member).view.id = members.ids member ∧
      (cluster.node member).view.index = member ∧
        (cluster.node member).view.votes.length = n ∧
          (cluster.node member).view.nexts.length = n ∧
            (cluster.node member).view.matched.length = n := by
  obtain ⟨id, index, length⟩ := sane.configured member
  exact ⟨id, index, (List.length_map _).trans length,
    (List.length_map _).trans length, (List.length_map _).trans length⟩

end

end NvmeofRaft
