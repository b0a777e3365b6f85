import Mathlib.Algebra.Order.Ring.Nat
import Mathlib.Data.List.TakeWhile
import Mathlib.Data.Nat.Digits.Defs

namespace NvmeofRaft

/-!
# Fields of a text

Texts that are cut at a separator by `std::getline` and numbers that are read
by `strtoull`.  A text is the list of its characters; those of a command line
have no zero byte.
-/

/--
The items that `std::getline` finds up to the end of a stream.  It does not
find an empty item behind the last separator.
-/
def getlines (sep : Char) (text : List Char) : List (List Char) :=
  let items := text.splitOn sep
  if items.getLast? = some [] then items.dropLast else items

/-- An item has no separator, and only letters of the text. -/
theorem mem_splitOn
    {sep : Char}
    {text : List Char} :
    ∀ {item : List Char},
      item ∈ text.splitOn sep → sep ∉ item ∧ item ⊆ text := by
  induction text with
  | nil =>
      intro item inside
      rw [List.splitOn_nil, List.mem_singleton] at inside
      rw [inside]
      exact ⟨List.not_mem_nil, List.nil_subset _⟩
  | cons letter text inductionHypothesis =>
      intro item inside
      rw [List.splitOn, List.splitOnP_cons_eq_if_modifyHead] at inside
      split at inside
      · rcases List.mem_cons.mp inside with rfl | later
        · exact ⟨List.not_mem_nil, List.nil_subset _⟩
        · obtain ⟨apart, within⟩ := inductionHypothesis later
          exact ⟨apart, List.subset_cons_of_subset _ within⟩
      · rename_i other
        have here : sep ≠ letter := fun same => other (beq_iff_eq.mpr same.symm)
        obtain ⟨first, others, same⟩ :=
          List.exists_cons_of_ne_nil
            (List.splitOnP_ne_nil (fun found => found == sep) text)
        rw [same, List.modifyHead_cons] at inside
        have early : first ∈ text.splitOn sep := by
          rw [List.splitOn, same]
          exact List.mem_cons_self
        rcases List.mem_cons.mp inside with rfl | later
        · obtain ⟨apart, within⟩ := inductionHypothesis early
          exact ⟨List.not_mem_cons_of_ne_of_not_mem here apart,
            List.cons_subset_cons _ within⟩
        · have within : item ∈ text.splitOn sep := by
            rw [List.splitOn, same]
            exact List.mem_cons_of_mem _ later
          obtain ⟨apart, within⟩ := inductionHypothesis within
          exact ⟨apart, List.subset_cons_of_subset _ within⟩

theorem mem_getlines
    {sep : Char}
    {text item : List Char}
    (inside : item ∈ getlines sep text) :
    sep ∉ item ∧ item ⊆ text := by
  rw [getlines] at inside
  split at inside
  · exact mem_splitOn (List.dropLast_subset _ inside)
  · exact mem_splitOn inside

section

variable {sep : Char} {items : List (List Char)}

/-- Items that are joined by the separator are found, up to an empty last one. -/
theorem getlines_joined
    (apart : ∀ item ∈ items, sep ∉ item)
    (last : items.getLast? ≠ some []) :
    getlines sep ([sep].intercalate items) = items := by
  cases items with
  | nil =>
      rfl
  | cons first others =>
      have split := List.splitOn_intercalate sep apart (List.cons_ne_nil _ _)
      rw [getlines, split]
      exact if_neg last

/-- An empty item behind the last separator is not found. -/
theorem getlines_joined_empty
    (apart : ∀ item ∈ items, sep ∉ item) :
    getlines sep ([sep].intercalate (items ++ [[]])) = items := by
  have apart' : ∀ item ∈ items ++ [[]], sep ∉ item := by
    intro item inside
    rcases List.mem_append.mp inside with early | last
    · exact apart item early
    · rw [List.mem_singleton.mp last]
      exact List.not_mem_nil
  have some : items ++ [[]] ≠ [] := List.append_ne_nil_of_right_ne_nil _
    (List.cons_ne_nil _ _)
  have split := List.splitOn_intercalate sep apart' some
  rw [getlines, split, List.dropLast_concat]
  exact if_pos (List.getLast?_concat)

end

/-- `isspace` in the C locale. -/
def isSpace (letter : Char) : Bool :=
  letter == ' ' || (decide ('\t' ≤ letter) && decide (letter ≤ '\r'))

/-- The value of decimal digits, the highest first. -/
def digitsValue (digits : List Char) : Nat :=
  digits.foldl (fun value letter => 10 * value + (letter.toNat - 48)) 0

/-- The sign in front of the digits, and the digits. -/
def signedDigits : List Char → Bool × List Char
  | '-' :: digits => (true, digits)
  | '+' :: digits => (false, digits)
  | digits => (false, digits)

/--
`strtoull` in base ten: blanks, a sign and digits; what stands behind them is
not looked at.  A number that does not fit becomes the largest one.
-/
def strtoull (text : List Char) : Nat :=
  let signed := signedDigits (text.dropWhile isSpace)
  let value := digitsValue (signed.2.takeWhile Char.isDigit)
  if 2 ^ 64 ≤ value then
    2 ^ 64 - 1
  else if signed.1 then
    (2 ^ 64 - value) % 2 ^ 64
  else
    value

theorem strtoull_lt
    (text : List Char) :
    strtoull text < 2 ^ 64 := by
  unfold strtoull
  dsimp only
  split
  · omega
  · split
    · exact Nat.mod_lt _ (Nat.two_pow_pos 64)
    · omega

/-- A digit as a letter. -/
def digitLetter (digit : Nat) : Char :=
  Char.ofNat (48 + digit)

/-- The decimal digits of a number. -/
def decimal (value : Nat) : List Char :=
  (Nat.digits 10 value).reverse.map digitLetter

theorem digitLetter_spec
    {digit : Nat}
    (small : digit < 10) :
    (digitLetter digit).isDigit = true ∧
      isSpace (digitLetter digit) = false ∧
        signedDigits [digitLetter digit] = (false, [digitLetter digit]) ∧
          (digitLetter digit).toNat - 48 = digit := by
  have checked :
      ∀ digit < 10,
        (digitLetter digit).isDigit = true ∧
          isSpace (digitLetter digit) = false ∧
            signedDigits [digitLetter digit] = (false, [digitLetter digit]) ∧
              (digitLetter digit).toNat - 48 = digit := by
    decide
  exact checked digit small

theorem mem_decimal
    {value : Nat}
    {letter : Char}
    (inside : letter ∈ decimal value) :
    ∃ digit < 10, letter = digitLetter digit := by
  obtain ⟨digit, found, rfl⟩ := List.mem_map.mp inside
  exact ⟨digit, Nat.digits_lt_base (by decide) (List.mem_reverse.mp found),
    rfl⟩

theorem digitsValue_reverse
    {digits : List Nat}
    (small : ∀ digit ∈ digits, digit < 10) :
    digitsValue (digits.reverse.map digitLetter) = Nat.ofDigits 10 digits := by
  induction digits with
  | nil =>
      rfl
  | cons digit digits inductionHypothesis =>
      have rest := inductionHypothesis fun other inside =>
        small other (List.mem_cons_of_mem _ inside)
      have here :=
        (digitLetter_spec (small digit List.mem_cons_self)).2.2.2
      rw [digitsValue] at rest
      rw [List.reverse_cons, List.map_append, digitsValue, List.foldl_append,
        rest, Nat.ofDigits_cons]
      show 10 * Nat.ofDigits 10 digits + ((digitLetter digit).toNat - 48) = _
      rw [here]
      exact Nat.add_comm _ _

/-- Digits are not taken for blanks or for a sign. -/
theorem signedDigits_decimal
    (value : Nat) :
    signedDigits ((decimal value).dropWhile isSpace) =
      (false, decimal value) := by
  cases text : decimal value with
  | nil =>
      rfl
  | cons first rest =>
      have inside : first ∈ decimal value := by
        rw [text]
        exact List.mem_cons_self
      obtain ⟨digit, small, rfl⟩ := mem_decimal inside
      obtain ⟨-, noSpace, noSign, -⟩ := digitLetter_spec small
      rw [List.dropWhile_cons_of_neg (by rw [noSpace]; exact Bool.false_ne_true)]
      unfold signedDigits at noSign ⊢
      split at noSign
      · cases noSign
      · rename_i same
        cases noSign
        cases congrArg List.length same
      · rename_i noMinus noPlus
        split
        · rename_i same
          exact absurd (congrArg (List.take 1) same) (noMinus [])
        · rename_i same
          exact absurd (congrArg (List.take 1) same) (noPlus [])
        · rfl

/-- A number that fits is read back. -/
theorem strtoull_decimal
    {value : Nat}
    (fits : value < 2 ^ 64) :
    strtoull (decimal value) = value := by
  have digits : ∀ letter ∈ decimal value, letter.isDigit = true := by
    intro letter inside
    obtain ⟨digit, small, rfl⟩ := mem_decimal inside
    exact (digitLetter_spec small).1
  have read : digitsValue (decimal value) = value := by
    rw [decimal, digitsValue_reverse fun digit inside =>
      Nat.digits_lt_base (by decide) inside]
    exact Nat.ofDigits_digits 10 value
  rw [strtoull, signedDigits_decimal]
  dsimp only
  rw [List.takeWhile_eq_self_iff.mpr digits, read,
    if_neg (Nat.not_le.mpr fits)]
  exact if_neg Bool.false_ne_true

end NvmeofRaft
