import Mathlib.Data.List.FinRange
import NvmeofRaft.Cluster
import NvmeofRaft.TextFields

namespace NvmeofRaft

/-!
# The cluster on the command line

`-cluster` and `-id` of `raft_node` (`raft_node_main.cpp`): the entries
`id@raft_addr@device_path@storage_host`, separated by commas, and the `Server`
that `main` fills with them.  Of a member the server keeps its id here; its
other fields are not read by the protocol.
-/

/-- `MemberSpec`. -/
structure MemberSpec where
  id : Nat
  address : List Char
  devicePath : List Char
  storageHost : List Char
  deriving Repr, DecidableEq

/-- `cli::split`. -/
def split
    (text : List Char)
    (sep : Char)
    (skipEmpty : Bool) :
    List (List Char) :=
  if skipEmpty then
    (getlines sep text).filter fun item => !item.isEmpty
  else
    getlines sep text

/-- The message of an entry that `parse_member` refuses. -/
def invalidEntry
    (spec : List Char)
    (reason : String) :
    List Char :=
  "invalid -cluster entry '".toList ++ spec ++ reason.toList

/-- `parse_member`. -/
def parseMember
    (spec : List Char) :
    Except (List Char) MemberSpec :=
  match split spec '@' false with
  | idText :: address :: devicePath :: storageHost :: _ =>
      let id := strtoull idText
      if id = 0 then
        .error (invalidEntry spec "': id must be > 0")
      else if ':' ∉ address then
        .error (invalidEntry spec "': raft_addr must be host:port")
      else
        .ok { id, address, devicePath, storageHost }
  | _ =>
      .error (invalidEntry spec
        "' (expected id@raft_addr@device_path@storage_host)")

/-- The loop of `main` over the entries. -/
def parseMembers
    (clusterStr : List Char) :
    Except (List Char) (List MemberSpec) :=
  ((split clusterStr ',' false).filter fun spec => !spec.isEmpty).mapM
    parseMember

/-- How `main` refuses its arguments. -/
inductive NodeArgError where
  | usage
  | invalidEntry (what : List Char)
  | emptyCluster
  | notPresent (id : Nat)
  deriving Repr, DecidableEq

/-- The loop of `main` that looks for its own id, the last of which counts. -/
def findMyIndex
    (myId : Nat) :
    List MemberSpec → Nat → Option Nat → Option Nat
  | [], _, myIndex =>
      myIndex
  | member :: members, index, myIndex =>
      findMyIndex myId members (index + 1)
        (if member.id = myId then some index else myIndex)

/-- What `main` makes of its arguments, up to `init_storage`. -/
def configureNode
    (settings : Settings)
    (myId : Nat)
    (clusterStr : List Char) :
    Except NodeArgError Server :=
  if myId = 0 ∨ clusterStr = [] then
    .error .usage
  else
    match parseMembers clusterStr with
    | .error what => .error (.invalidEntry what)
    | .ok members =>
        if members = [] then
          .error .emptyCluster
        else
          match findMyIndex myId members 0 none with
          | none => .error (.notPresent myId)
          | some myIndex =>
              .ok {
                raft := {
                  id := myId
                  cluster := members.map fun member => { id := member.id }
                  clusterIndex := myIndex }
                ring := ({
                  logTrimThreshold := settings.logTrimThreshold } :
                    RingLog).configure settings.numPages
                maxAeBatch := settings.maxAeBatch
                maxAeBatchBytes := settings.maxAeBatchBytes
                replicationMode := settings.replicationMode }

/-- What every accepted member is: the fields have none of the separators. -/
structure MemberSpec.Valid (member : MemberSpec) : Prop where
  positive : 0 < member.id
  fits : member.id < 2 ^ 64
  port : ':' ∈ member.address
  address : '@' ∉ member.address ∧ ',' ∉ member.address
  devicePath : '@' ∉ member.devicePath ∧ ',' ∉ member.devicePath
  storageHost : '@' ∉ member.storageHost ∧ ',' ∉ member.storageHost

/-- What is parsed is a valid member. -/
theorem parseMember_valid
    {spec : List Char}
    {member : MemberSpec}
    (noComma : ',' ∉ spec)
    (parsed : parseMember spec = .ok member) :
    member.Valid := by
  have field :
      ∀ item ∈ split spec '@' false, '@' ∉ item ∧ ',' ∉ item := by
    intro item inside
    obtain ⟨apart, within⟩ := mem_getlines inside
    exact ⟨apart, fun comma => noComma (within comma)⟩
  rw [parseMember] at parsed
  split at parsed
  · rename_i idText address devicePath storageHost others items
    rw [items] at field
    dsimp only at parsed
    split at parsed
    · cases parsed
    · rename_i nonzero
      split at parsed
      · cases parsed
      · rename_i port
        obtain rfl := Except.ok.inj parsed
        exact {
          positive := Nat.pos_of_ne_zero nonzero
          fits := strtoull_lt idText
          port := not_not.mp port
          address := field _ (by simp)
          devicePath := field _ (by simp)
          storageHost := field _ (by simp) }
  · cases parsed

/-- Entries are parsed one by one. -/
theorem mapM_parseMember_iff :
    ∀ {specs : List (List Char)} {members : List MemberSpec},
      specs.mapM parseMember = .ok members ↔
        List.Forall₂ (fun spec member => parseMember spec = .ok member) specs
          members := by
  intro specs
  induction specs with
  | nil =>
      intro members
      rw [List.mapM_nil]
      constructor
      · intro same
        obtain rfl := Except.ok.inj same
        exact .nil
      · intro related
        cases related
        rfl
  | cons spec specs inductionHypothesis =>
      intro members
      rw [List.mapM_cons]
      constructor
      · intro parsed
        cases first : parseMember spec with
        | error what =>
            rw [first] at parsed
            cases parsed
        | ok member =>
            cases rest : specs.mapM parseMember with
            | error what =>
                rw [first, rest] at parsed
                cases parsed
            | ok others =>
                rw [first, rest] at parsed
                obtain rfl := Except.ok.inj parsed
                exact .cons first (inductionHypothesis.mp rest)
      · intro related
        cases related with
        | cons first rest =>
            rw [first, inductionHypothesis.mpr rest]
            rfl

/-- Every member of an accepted text is valid. -/
theorem parseMembers_valid
    {clusterStr : List Char}
    {members : List MemberSpec}
    (parsed : parseMembers clusterStr = .ok members)
    {member : MemberSpec}
    (inside : member ∈ members) :
    member.Valid := by
  obtain ⟨index, bound, rfl⟩ := List.mem_iff_getElem.mp inside
  have related := mapM_parseMember_iff.mp parsed
  have here := related.get (by rw [related.length_eq]; exact bound) bound
  refine parseMember_valid ?_ here
  have found := List.mem_of_mem_filter (List.getElem_mem
    (by rw [related.length_eq]; exact bound :
      index < ((split clusterStr ',' false).filter fun spec =>
        !spec.isEmpty).length))
  exact (mem_getlines found).1

/-- Members with other ids do not change the index that was found. -/
theorem findMyIndex_of_notMem
    {myId : Nat}
    {members : List MemberSpec} :
    ∀ {index : Nat} {found : Option Nat},
      myId ∉ members.map MemberSpec.id →
      findMyIndex myId members index found = found := by
  induction members with
  | nil =>
      intro index found _
      rfl
  | cons member members inductionHypothesis =>
      intro index found others
      rw [List.map_cons, List.mem_cons, not_or] at others
      rw [findMyIndex, if_neg fun same => others.1 same.symm]
      exact inductionHypothesis others.2

/-- The index of the only member with the id. -/
theorem findMyIndex_of_nodup
    {members : List MemberSpec} :
    ∀ {index : Nat} {found : Option Nat},
      (members.map MemberSpec.id).Nodup →
      ∀ node : Fin members.length,
        findMyIndex (members.get node).id members index found =
          some (index + node) := by
  induction members with
  | nil =>
      intro index found _ node
      exact node.elim0
  | cons member members inductionHypothesis =>
      intro index found distinct node
      rw [List.map_cons, List.nodup_cons] at distinct
      cases node using Fin.cases with
      | zero =>
          show findMyIndex member.id (member :: members) index found =
            some index
          rw [findMyIndex, if_pos rfl]
          exact findMyIndex_of_notMem distinct.1
      | succ node =>
          have other : member.id ≠ (members.get node).id := by
            intro same
            exact distinct.1 (List.mem_map.mpr
              ⟨_, List.get_mem members node, same.symm⟩)
          rw [List.get_cons_succ', findMyIndex, if_neg other,
            inductionHypothesis distinct.2 node, Fin.val_succ]
          congr 1
          omega

section

variable {clusterStr : List Char} {members : List MemberSpec}

/-- A node that is listed once gets the index of its entry. -/
theorem configureNode_of_nodup
    (parsed : parseMembers clusterStr = .ok members)
    (distinct : (members.map MemberSpec.id).Nodup)
    (membership : Membership members.length)
    (ids : ∀ node, membership.ids node = (members.get node).id)
    (settings : Fin members.length → Settings)
    (node : Fin members.length) :
    configureNode (settings node) (members.get node).id clusterStr =
      .ok (membership.server settings node) := by
  have valid := parseMembers_valid parsed (List.get_mem members node)
  have given : ¬ ((members.get node).id = 0 ∨ clusterStr = []) := by
    rintro (zero | rfl)
    · exact Nat.ne_of_gt valid.positive zero
    · obtain rfl := Except.ok.inj parsed
      exact node.elim0
  have some : members ≠ [] := List.ne_nil_of_length_pos
    (Nat.zero_lt_of_lt node.isLt)
  have cluster :
      (members.map fun member => ({ id := member.id } : ClusterMember)) =
        List.ofFn fun peer => { id := membership.ids peer } := by
    simp only [ids]
    exact (congrArg (List.map _) (List.ofFn_get members).symm).trans
      List.map_ofFn
  rw [configureNode, if_neg given, parsed]
  dsimp only
  rw [if_neg some, findMyIndex_of_nodup distinct, cluster]
  dsimp only
  rw [Nat.zero_add, Membership.server, ids]

/-- The server of an accepted start has the members of the text. -/
theorem configureNode_cluster
    {settings : Settings}
    {myId : Nat}
    {server : Server}
    (parsed : parseMembers clusterStr = .ok members)
    (configured : configureNode settings myId clusterStr = .ok server) :
    server.raft.cluster = members.map fun member => { id := member.id } := by
  rw [configureNode, parsed] at configured
  split at configured
  · cases configured
  · dsimp only at configured
    split at configured
    · cases configured
    · split at configured
      · cases configured
      · obtain rfl := Except.ok.inj configured
        rfl

/--
The nodes that are started with one text for `-cluster`, each with the id of
its entry, are the constructed servers of a cluster of the model if and only if
no id occurs twice.
-/
theorem cluster_text_is_membership_iff
    (parsed : parseMembers clusterStr = .ok members) :
    (∃ membership : Membership members.length,
        ∀ (settings : Fin members.length → Settings)
          (node : Fin members.length),
          configureNode (settings node) (members.get node).id clusterStr =
            .ok (membership.server settings node)) ↔
      (members.map MemberSpec.id).Nodup := by
  constructor
  · rintro ⟨membership, same⟩
    rcases Nat.eq_zero_or_pos members.length with none | some
    · rw [List.eq_nil_of_length_eq_zero none]
      exact List.nodup_nil
    · let settings : Fin members.length → Settings :=
        fun _ => { extents := [] }
      have cluster :=
        configureNode_cluster parsed (same settings ⟨0, some⟩)
      have ids :
          List.ofFn membership.ids = members.map MemberSpec.id := by
        have byId := congrArg (List.map ClusterMember.id) cluster
        rw [List.map_map] at byId
        have shape :
            (List.ofFn fun peer =>
                ({ id := membership.ids peer } : ClusterMember)).map
              ClusterMember.id = List.ofFn membership.ids :=
          List.map_ofFn
        exact shape.symm.trans byId
      rw [← ids]
      exact List.nodup_ofFn.mpr membership.distinct
  · intro distinct
    let membership : Membership members.length := {
      ids := fun node => (members.get node).id
      distinct := fun first second same =>
        (List.nodup_iff_injective_get.mp distinct.of_map)
          (List.inj_on_of_nodup_map distinct (List.get_mem _ _)
            (List.get_mem _ _) same)
      nonzero := fun node => Nat.ne_of_gt
        (parseMembers_valid parsed (List.get_mem members node)).positive }
    exact ⟨membership, configureNode_of_nodup parsed distinct membership
      fun _ => rfl⟩

end

/-- The same id in two entries. -/
def repeatedId : List Char :=
  "1@a:1@d@s,1@b:2@e@t".toList

def repeatedMembers : List MemberSpec :=
  [{ id := 1
     address := "a:1".toList
     devicePath := "d".toList
     storageHost := "s".toList },
   { id := 1
     address := "b:2".toList
     devicePath := "e".toList
     storageHost := "t".toList }]

/-- `main` accepts the text, and starts no cluster of the model. -/
theorem repeated_id_is_no_membership :
    ¬ ∃ membership : Membership repeatedMembers.length,
      ∀ (settings : Fin repeatedMembers.length → Settings)
        (node : Fin repeatedMembers.length),
        configureNode (settings node) (repeatedMembers.get node).id repeatedId =
          .ok (membership.server settings node) := by
  have parsed : parseMembers repeatedId = .ok repeatedMembers := by rfl
  rw [cluster_text_is_membership_iff parsed]
  decide

/-- `id@raft_addr@device_path@storage_host`. -/
def MemberSpec.text (member : MemberSpec) : List Char :=
  ['@'].intercalate
    [decimal member.id, member.address, member.devicePath,
      member.storageHost]

/-- The entries, separated by commas. -/
def clusterText (members : List MemberSpec) : List Char :=
  [','].intercalate (members.map MemberSpec.text)

theorem notMem_decimal
    {value : Nat}
    {letter : Char}
    (noDigit : letter.isDigit = false) :
    letter ∉ decimal value := by
  intro inside
  obtain ⟨digit, small, rfl⟩ := mem_decimal inside
  rw [(digitLetter_spec small).1] at noDigit
  cases noDigit

/-- An entry is read back, unless its storage host is empty. -/
theorem parseMember_text
    {member : MemberSpec}
    (valid : member.Valid) :
    parseMember member.text = .ok member ↔ member.storageHost ≠ [] := by
  have apart :
      ∀ item ∈ [decimal member.id, member.address, member.devicePath],
        '@' ∉ item := by
    intro item inside
    simp only [List.mem_cons, List.not_mem_nil, or_false] at inside
    rcases inside with rfl | rfl | rfl
    · exact notMem_decimal rfl
    · exact valid.address.1
    · exact valid.devicePath.1
  have id : strtoull (decimal member.id) = member.id :=
    strtoull_decimal valid.fits
  constructor
  · intro parsed empty
    have items : split member.text '@' false =
        [decimal member.id, member.address, member.devicePath] := by
      rw [MemberSpec.text, empty]
      exact getlines_joined_empty apart
    rw [parseMember, items] at parsed
    cases parsed
  · intro given
    have items : split member.text '@' false =
        [decimal member.id, member.address, member.devicePath,
          member.storageHost] := by
      refine getlines_joined ?_ fun last => given (Option.some.inj last)
      intro item inside
      rcases List.mem_append.mp
        (show item ∈ [decimal member.id, member.address,
          member.devicePath] ++ [member.storageHost] from inside) with
        early | last
      · exact apart item early
      · rw [List.mem_singleton.mp last]
        exact valid.storageHost.1
    rw [parseMember, items]
    dsimp only
    rw [id, if_neg (Nat.ne_of_gt valid.positive),
      if_neg (not_not.mpr valid.port)]

/-- Entries have no comma, and are not empty. -/
theorem MemberSpec.Valid.text
    {member : MemberSpec}
    (valid : member.Valid) :
    ',' ∉ member.text ∧ member.text ≠ [] := by
  have shape :
      member.text =
        decimal member.id ++ '@' :: (member.address ++ '@' ::
          (member.devicePath ++ '@' :: member.storageHost)) := by
    simp [MemberSpec.text, List.intercalate]
  have noDigit : ',' ∉ decimal member.id := notMem_decimal rfl
  have noAt : ',' ≠ '@' := by decide
  rw [shape]
  refine ⟨?_, List.append_ne_nil_of_right_ne_nil _ (List.cons_ne_nil _ _)⟩
  simp only [List.mem_append, List.mem_cons, not_or]
  exact ⟨noDigit, noAt, valid.address.2, noAt, valid.devicePath.2, noAt,
    valid.storageHost.2⟩

/--
The text that documents a list of members is read back as this list if and only
if every storage host is given: `getline` drops an empty last field, and
`parse_member` refuses what is left.
-/
theorem cluster_text_round_trip_iff
    {members : List MemberSpec}
    (valid : ∀ member ∈ members, member.Valid) :
    parseMembers (clusterText members) = .ok members ↔
      ∀ member ∈ members, member.storageHost ≠ [] := by
  have items : split (clusterText members) ',' false =
      members.map MemberSpec.text := by
    refine getlines_joined ?_ fun last => ?_
    · intro item inside
      obtain ⟨member, found, rfl⟩ := List.mem_map.mp inside
      exact (valid member found).text.1
    · obtain ⟨member, found, empty⟩ :=
        List.mem_map.mp (List.mem_of_getLast? last)
      exact (valid member found).text.2 empty
  have filtered :
      (members.map MemberSpec.text).filter (fun spec => !spec.isEmpty) =
        members.map MemberSpec.text := by
    refine List.filter_eq_self.mpr fun item inside => ?_
    obtain ⟨member, found, rfl⟩ := List.mem_map.mp inside
    simpa using (valid member found).text.2
  rw [parseMembers, items, filtered, mapM_parseMember_iff,
    List.forall₂_map_left_iff, List.forall₂_same]
  exact forall₂_congr fun member inside =>
    parseMember_text (valid member inside)

/-- A member without a storage host. -/
def hostlessMember : MemberSpec where
  id := 7
  address := "a:1".toList
  devicePath := "d".toList
  storageHost := []

theorem hostless_member_refused :
    ¬ parseMembers "7@a:1@d@".toList = .ok [hostlessMember] := by
  have valid : ∀ member ∈ [hostlessMember], member.Valid := by
    intro member inside
    rw [List.mem_singleton.mp inside]
    constructor <;> decide
  have text : clusterText [hostlessMember] = "7@a:1@d@".toList := by
    decide
  rw [← text, cluster_text_round_trip_iff valid]
  decide

end NvmeofRaft
