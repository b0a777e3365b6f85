import NvmeofRaft.AppliedCommands
import NvmeofRaft.ReversibleFold
import NvmeofRaft.WordBytes

namespace NvmeofRaft

/-!
# The hash state machine

`HashStateMachine` (`raft_statemachine_hash.h`) folds FNV-1a over the bytes of
the commands it is given, and `ClientGetHash` (`raft_tcp_server.cpp`) reads the
hash with the number of commands.  An operator compares the answers of two
nodes to see whether they have applied the same commands.
-/

/-- The 64-bit FNV prime. -/
def fnvPrime : UInt64 :=
  1099511628211

/-- One byte of a command. -/
def absorbByte
    (hash : UInt64)
    (byte : UInt8) :
    UInt64 :=
  (hash ^^^ byte.toUInt64) * fnvPrime

/-- `HashStateMachine`. -/
structure HashStateMachine where
  hash : UInt64 := 14695981039346656037
  count : Nat := 0
  deriving Repr, DecidableEq

/-- `HashStateMachine::Snapshot`. -/
structure HashSnapshot where
  hash : String
  count : Nat
  deriving Repr, DecidableEq

/-- A hexadecimal digit. -/
def hexDigit (value : Nat) : Char :=
  "0123456789abcdef".toList.getD value '0'

/-- The digits that `%0<width>llx` prints of a number of at most `width`. -/
def hexDigits : Nat → Nat → List Char
  | 0, _ =>
      []
  | width + 1, value =>
      hexDigits width (value / 16) ++ [hexDigit (value % 16)]

namespace HashStateMachine

/-- `HashStateMachine::apply`: the count is the result, in eight bytes. -/
def apply
    (machine : HashStateMachine)
    (command : List UInt8) :
    List UInt8 × HashStateMachine :=
  let next : HashStateMachine :=
    { hash := command.foldl absorbByte machine.hash
      count := (machine.count + 1) % 2 ^ 64 }
  (leBytes 8 next.count, next)

/-- `HashStateMachine::snapshot`. -/
def snapshot (machine : HashStateMachine) : HashSnapshot where
  hash := String.ofList (hexDigits 16 machine.hash.toNat)
  count := machine.count

/-- The state machine after the commands of a list. -/
def applyAll
    (machine : HashStateMachine)
    (commands : List (List UInt8)) :
    HashStateMachine :=
  commands.foldl (fun machine command => (machine.apply command).2) machine

end HashStateMachine

/-- What a fresh state machine shows once it has applied the commands. -/
def hashOf (commands : List (List UInt8)) : HashSnapshot :=
  (HashStateMachine.applyAll {} commands).snapshot

/-- FNV-1a loses neither the hash nor the byte. -/
theorem absorbByte_reversible : Reversible absorbByte := by
  have undo : fnvPrime * 14886173955864302971 = 1 := by decide
  have cancel :
      ∀ first second : UInt64,
        first * fnvPrime = second * fnvPrime → first = second := by
    intro first second same
    have scaled := congrArg (· * 14886173955864302971) same
    simpa only [UInt64.mul_assoc, undo, UInt64.mul_one] using scaled
  refine ⟨fun byte first second same => ?_, fun hash first second same => ?_⟩
  · exact (UInt64.xor_left_inj _).mp (cancel _ _ same)
  · exact UInt8.toUInt64_inj.mp
      ((UInt64.xor_right_inj _).mp (cancel _ _ same))

/-- Different digits have different letters. -/
theorem hexDigit_injective
    {first second : Nat}
    (firstDigit : first < 16)
    (secondDigit : second < 16)
    (same : hexDigit first = hexDigit second) :
    first = second := by
  have table :
      ∀ first second : Fin 16,
        hexDigit first = hexDigit second → first = second := by
    decide
  exact congrArg Fin.val
    (table ⟨first, firstDigit⟩ ⟨second, secondDigit⟩ same)

theorem length_hexDigits
    (width value : Nat) :
    (hexDigits width value).length = width := by
  induction width generalizing value with
  | zero =>
      rfl
  | succ width inductionHypothesis =>
      rw [hexDigits, List.length_append, inductionHypothesis]
      rfl

/-- Numbers that fit are told apart by their digits. -/
theorem hexDigits_injective
    {width first second : Nat}
    (firstFits : first < 16 ^ width)
    (secondFits : second < 16 ^ width)
    (same : hexDigits width first = hexDigits width second) :
    first = second := by
  induction width generalizing first second with
  | zero =>
      omega
  | succ width inductionHypothesis =>
      rw [Nat.pow_succ] at firstFits secondFits
      obtain ⟨high, low⟩ := List.append_inj same
        ((length_hexDigits _ _).trans (length_hexDigits _ _).symm)
      have quotients := inductionHypothesis
        (Nat.div_lt_of_lt_mul (by omega)) (Nat.div_lt_of_lt_mul (by omega))
        high
      have digits := hexDigit_injective (Nat.mod_lt _ (by decide))
        (Nat.mod_lt _ (by decide)) (List.cons.inj low).1
      omega

namespace HashStateMachine

/-- Snapshots tell states apart. -/
theorem snapshot_inj
    {first second : HashStateMachine} :
    first.snapshot = second.snapshot ↔ first = second := by
  refine ⟨fun same => ?_, congrArg snapshot⟩
  simp only [snapshot, HashSnapshot.mk.injEq] at same
  obtain ⟨texts, count⟩ := same
  have hash : first.hash = second.hash :=
    UInt64.toNat_inj.mp
      (hexDigits_injective first.hash.toNat_lt second.hash.toNat_lt
        (String.ofList_injective texts))
  cases first
  cases second
  cases hash
  cases count
  rfl

/-- The hash is that of all bytes, and the count that of the commands. -/
theorem applyAll_eq
    (machine : HashStateMachine)
    (commands : List (List UInt8)) :
    machine.applyAll commands =
      { hash := commands.flatten.foldl absorbByte machine.hash
        count :=
          if commands = [] then machine.count
          else (machine.count + commands.length) % 2 ^ 64 } := by
  induction commands generalizing machine with
  | nil =>
      rfl
  | cons command commands inductionHypothesis =>
      have after :
          machine.applyAll (command :: commands) =
            (machine.apply command).2.applyAll commands :=
        rfl
      rw [after, inductionHypothesis, List.flatten_cons, List.foldl_append,
        if_neg (List.cons_ne_nil _ _), List.length_cons]
      simp only [apply]
      split
      · rename_i empty
        rw [empty, List.length_nil]
      · congr 1
        rw [Nat.mod_add_mod]
        congr 1
        omega

end HashStateMachine

/-- The count of a snapshot, as long as it does not wrap. -/
theorem hashOf_count
    {commands : List (List UInt8)}
    (small : commands.length < 2 ^ 64) :
    (hashOf commands).count = commands.length := by
  rw [hashOf, HashStateMachine.applyAll_eq]
  show (if commands = [] then 0 else (0 + commands.length) % 2 ^ 64) = _
  split
  · rename_i empty
    rw [empty]
    rfl
  · rw [Nat.zero_add, Nat.mod_eq_of_lt small]

/-- Two hashes that differ stay different under the same commands. -/
theorem hash_divergence_persists
    {first second : HashStateMachine}
    (differ : first.hash ≠ second.hash)
    (later : List (List UInt8)) :
    (first.applyAll later).snapshot ≠ (second.applyAll later).snapshot := by
  intro same
  have machines := HashStateMachine.snapshot_inj.mp same
  rw [HashStateMachine.applyAll_eq, HashStateMachine.applyAll_eq] at machines
  exact differ
    (absorbByte_reversible.foldl_injective _
      (congrArg HashStateMachine.hash machines))

/--
The hash shows a changed byte.  Two nodes whose commands differ in one byte show
different snapshots, then and after any further commands that both apply.
-/
theorem hash_shows_changed_byte
    {first second : List (List UInt8)}
    {front back : List UInt8}
    {byte other : UInt8}
    (differ : byte ≠ other)
    (firstBytes : first.flatten = front ++ byte :: back)
    (secondBytes : second.flatten = front ++ other :: back)
    (later : List (List UInt8)) :
    hashOf (first ++ later) ≠ hashOf (second ++ later) := by
  have split :
      ∀ commands : List (List UInt8),
        hashOf (commands ++ later) =
          ((HashStateMachine.applyAll {} commands).applyAll later).snapshot :=
    fun commands => congrArg HashStateMachine.snapshot List.foldl_append
  rw [split, split]
  refine hash_divergence_persists ?_ later
  rw [HashStateMachine.applyAll_eq, HashStateMachine.applyAll_eq, firstBytes,
    secondBytes]
  exact absorbByte_reversible.foldl_ne_of_one differ _

/-- Two commands that differ in their second byte, both followed by a third. -/
theorem hash_shows_second_byte :
    hashOf ([[1, 2], [3]] ++ [[4]]) ≠ hashOf ([[1, 7], [3]] ++ [[4]]) :=
  @hash_shows_changed_byte [[1, 2], [3]] [[1, 7], [3]] [1] [3] 2 7 (by decide)
    rfl rfl [[4]]

/-- `ClientGetHashResponse`. -/
structure ClientGetHashResponse where
  error : String := ""
  hash : String := ""
  count : Nat := 0
  deriving Repr, DecidableEq

/-- The wait for `at_count`: so many more looks at the snapshot. -/
def pollSnapshot
    (snapshots : Nat → HashSnapshot)
    (atCount : Nat) :
    Nat → Nat → HashSnapshot
  | 0, look =>
      snapshots look
  | more + 1, look =>
      if (snapshots look).count < atCount then
        pollSnapshot snapshots atCount more (look + 1)
      else
        snapshots look

/-- The looks at the snapshot after the first one. -/
def pollLimit : Nat :=
  2000

/-- The answer for the last snapshot. -/
def hashAnswer
    (snap : HashSnapshot)
    (atCount : Nat) :
    ClientGetHashResponse where
  hash := snap.hash
  count := snap.count
  error :=
    if 0 < atCount ∧ snap.count ≠ atCount then
      "count " ++ toString snap.count ++ " != requested " ++ toString atCount
    else
      ""

/--
The `ClientGetHash` branch of `dispatch_client_method`.  `snapshots` are those
that the looks at the state machine find, `none` when it has no hash.
-/
def clientGetHash
    (snapshots : Option (Nat → HashSnapshot))
    (atCount : Nat) :
    ClientGetHashResponse :=
  match snapshots with
  | none =>
      { error := "state machine does not expose a hash -- " ++
          "start the node with -statemachine hash" }
  | some snapshots =>
      hashAnswer
        (if 0 < atCount then pollSnapshot snapshots atCount pollLimit 0
        else snapshots 0)
        atCount

/-- An answer has no error exactly when it shows the requested count. -/
theorem hashAnswer_exact
    {snap : HashSnapshot}
    {atCount : Nat}
    (asked : 0 < atCount) :
    (hashAnswer snap atCount).error = "" ↔ snap.count = atCount := by
  unfold hashAnswer
  dsimp only
  split
  · rename_i other
    refine ⟨fun same => ?_, fun same => absurd same other.2⟩
    have lengths := congrArg String.length same
    simp only [String.length_append] at lengths
    have none : "".length = 0 := rfl
    have some : "count ".length = 6 := rfl
    omega
  · rename_i same
    exact ⟨fun _ => not_not.mp fun other => same ⟨asked, other⟩,
      fun _ => rfl⟩

/-- The wait ends at the first look that finds the count reached. -/
theorem pollSnapshot_ends
    {snapshots : Nat → HashSnapshot}
    {atCount : Nat}
    (more look : Nat) :
    ∃ last,
      look ≤ last ∧ last ≤ look + more ∧
        pollSnapshot snapshots atCount more look = snapshots last ∧
          (last = look + more ∨ atCount ≤ (snapshots last).count) ∧
            ∀ earlier,
              look ≤ earlier →
              earlier < last →
              (snapshots earlier).count < atCount := by
  induction more generalizing look with
  | zero =>
      exact ⟨look, le_rfl, le_rfl, rfl, Or.inl rfl,
        fun _ from' below => absurd from' (Nat.not_le.mpr below)⟩
  | succ more inductionHypothesis =>
      unfold pollSnapshot
      split
      · rename_i short
        obtain ⟨last, first, bound, same, ends, all⟩ :=
          inductionHypothesis (look + 1)
        refine ⟨last, by omega, by omega, same, ?_, ?_⟩
        · exact ends.imp_left fun equal => by omega
        · intro earlier from' below
          rcases Nat.eq_or_lt_of_le from' with rfl | later
          · exact short
          · exact all earlier later below
      · rename_i reached
        exact ⟨look, le_rfl, by omega, rfl, Or.inr (by omega),
          fun _ from' below => absurd from' (Nat.not_le.mpr below)⟩

section

variable {seen : Nat → List (List UInt8)} {atCount : Nat}

/-- An answer without an error is about exactly the requested count. -/
theorem clientGetHash_exact
    (grows : ∀ look, seen look <+: seen (look + 1))
    (small : ∀ look, (seen look).length < 2 ^ 64)
    (asked : 0 < atCount) :
    ((clientGetHash (some fun look => hashOf (seen look)) atCount).error = "" ↔
        ∃ look ≤ pollLimit, (seen look).length = atCount) ∧
      ∀ look,
        (seen look).length = atCount →
        (clientGetHash (some fun look => hashOf (seen look)) atCount).error =
          "" →
        (clientGetHash (some fun look => hashOf (seen look)) atCount).hash =
          (hashOf (seen look)).hash := by
  have counts : ∀ look, (hashOf (seen look)).count = (seen look).length :=
    fun look => hashOf_count (small look)
  have chain : ∀ first distance, seen first <+: seen (first + distance) := by
    intro first distance
    induction distance with
    | zero => exact List.prefix_rfl
    | succ distance inductionHypothesis =>
        exact inductionHypothesis.trans (grows (first + distance))
  obtain ⟨last, -, bound, ends, reached, short⟩ :=
    @pollSnapshot_ends (fun look => hashOf (seen look)) atCount pollLimit 0
  simp only [counts] at reached short
  have answer :
      clientGetHash (some fun look => hashOf (seen look)) atCount =
        hashAnswer (hashOf (seen last)) atCount := by
    rw [← ends]
    exact congrArg (hashAnswer · atCount) (if_pos asked)
  have settled :=
    (@hashAnswer_exact (hashOf (seen last)) _ asked).trans
      (Eq.congr_left (counts last))
  rw [answer]
  refine ⟨settled.trans ⟨fun same => ⟨last, by omega, same⟩, ?_⟩, ?_⟩
  · rintro ⟨look, within, same⟩
    rcases Nat.lt_trichotomy look last with before | rfl | behind
    · have below := short look (Nat.zero_le _) before
      omega
    · exact same
    · -- the looks behind the last one find no fewer commands
      obtain ⟨distance, rfl⟩ := Nat.exists_eq_add_of_lt behind
      have more := (chain last (distance + 1)).length_le
      rw [← Nat.add_assoc] at more
      omega
  · intro look same exact'
    have length := settled.mp exact'
    have commands : seen look = seen last := by
      rcases Nat.le_total look last with before | behind
      · obtain ⟨distance, rfl⟩ := Nat.exists_eq_add_of_le before
        exact (chain look distance).eq_of_length (same.trans length.symm)
      · obtain ⟨distance, rfl⟩ := Nat.exists_eq_add_of_le behind
        exact ((chain last distance).eq_of_length
          (length.trans same.symm)).symm
    rw [commands]
    rfl

end

/-- What `snapshot` shows of a node whose state machine is the hash. -/
def Process.hashSnapshot (proc : Process) : HashSnapshot :=
  hashOf proc.server.statemachine

/--
`ClientGetHash` answers for one moment of the node.  Over any run without a
restart, an answer has no error exactly when one of the looks finds as many
commands applied as were asked for, and it then shows the hash of these.
-/
theorem get_hash_of_run
    {procs : Nat → Process}
    {atCount : Nat}
    (started : (procs 0).Started)
    (goesOn :
      ∀ look,
        ∃ inputs,
          runWhile noRestart Process.advance (procs look) inputs =
            some (procs (look + 1)))
    (small : ∀ look, (procs look).server.statemachine.length < 2 ^ 64)
    (asked : 0 < atCount) :
    ((clientGetHash (some fun look => (procs look).hashSnapshot)
          atCount).error = "" ↔
        ∃ look ≤ pollLimit,
          (procs look).server.statemachine.length = atCount) ∧
      ∀ look,
        (procs look).server.statemachine.length = atCount →
        (clientGetHash (some fun look => (procs look).hashSnapshot)
          atCount).error = "" →
        (clientGetHash (some fun look => (procs look).hashSnapshot)
            atCount).hash =
          (procs look).hashSnapshot.hash := by
  have allStarted : ∀ look, (procs look).Started := by
    intro look
    induction look with
    | zero => exact started
    | succ look inductionHypothesis =>
        obtain ⟨inputs, run⟩ := goesOn look
        exact (run_adds inductionHypothesis run).1
  refine clientGetHash_exact (fun look => ?_) small asked
  obtain ⟨inputs, run⟩ := goesOn look
  exact (run_adds (allStarted look) run).2

/-- A leader that applies its two commands between two looks. -/
theorem get_hash_of_two_commands :
    ∃ procs : Nat → Process,
      (procs 0).server.statemachine = [] ∧
        (clientGetHash (some fun look => (procs look).hashSnapshot) 2).error =
            "" ∧
          (clientGetHash (some fun look => (procs look).hashSnapshot)
              2).hash =
            (hashOf [[1], [2]]).hash := by
  obtain ⟨leader, campaign, passes⟩ :
      ∃ leader,
        runWhile (fun _ _ => true) Process.advance firstNode
            (firstCampaign ++ [{ act := mainAct false }]) = some leader ∧
          (decide (leader.server.statemachine = []) &&
            (runWhile noRestart Process.advance leader appliedCommands).any
              fun final =>
                decide (final.server.statemachine = [[1], [2]])) = true :=
    runWhile_exists (by decide +kernel)
  obtain ⟨nothing, passes⟩ := Bool.and_eq_true_iff.mp passes
  obtain ⟨final, run, applied⟩ := (Option.any_eq_true _ _).mp passes
  let procs : Nat → Process := fun look => if look = 0 then leader else final
  have later : ∀ look, procs (look + 1) = final := fun look =>
    if_neg (Nat.succ_ne_zero look)
  have commands :
      ∀ look, (procs look).server.statemachine.length ≤ 2 := by
    intro look
    cases look with
    | zero =>
        rw [show procs 0 = leader from rfl, of_decide_eq_true nothing]
        decide
    | succ look =>
        rw [later, of_decide_eq_true applied]
        decide
  obtain ⟨exact', shows⟩ := @get_hash_of_run procs 2
    (run_started (boot_started _ _ _) campaign)
    (fun look => by
      cases look with
      | zero => exact ⟨appliedCommands, run⟩
      | succ look => exact ⟨[], by rw [later, later]; rfl⟩)
    (fun look => (commands look).trans_lt (by decide)) (by decide)
  have two : (procs 1).server.statemachine.length = 2 := by
    rw [later, of_decide_eq_true applied]
    rfl
  have answered := exact'.mpr ⟨1, by decide, two⟩
  refine ⟨procs, of_decide_eq_true nothing, answered, ?_⟩
  rw [shows 1 two answered, Process.hashSnapshot, later,
    of_decide_eq_true applied]

end NvmeofRaft
