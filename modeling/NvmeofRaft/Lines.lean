import Mathlib.Data.List.Infix
import NvmeofRaft.Majority

namespace NvmeofRaft

/-!
# Lines of terms

A log is seen as the list of the terms of its entries.  The line of a term is
the log of the one who leads in that term, as far as it has grown.  Logs that
follow the lines agree up to every entry they have in common, and what a
majority has acknowledged in one term is in the lines of all later terms.
-/

section

variable {τ : Type} {line line' : τ → List τ} {first second log : List τ}

/-- Up to each of its entries, the log is a piece of the line of that entry. -/
def Follows
    (line : τ → List τ)
    (log : List τ) : Prop :=
  ∀ position term,
    log[position]? = some term → log.take (position + 1) <+: line term

/-- A longer log has the same front. -/
theorem take_of_front
    {index : Nat}
    (part : first <+: second)
    (within : index ≤ first.length) :
    second.take index = first.take index := by
  obtain ⟨rest, rfl⟩ := part
  exact List.take_append_of_le_length within

theorem follows_nil : Follows line [] := by
  intro position term found
  cases found

/-- A front of a log follows the same lines. -/
theorem Follows.of_front
    (follows : Follows line second)
    (part : first <+: second) :
    Follows line first := by
  intro position term found
  obtain ⟨rest, rfl⟩ := part
  have inside := (List.getElem?_eq_some_iff.mp found).1
  have whole := follows position term
    (by rw [List.getElem?_append_left inside]; exact found)
  rwa [List.take_append_of_le_length (by omega)] at whole

/-- A log follows lines that have grown. -/
theorem Follows.mono
    (follows : Follows line log)
    (grows : ∀ term, line term <+: line' term) :
    Follows line' log := by
  intro position term found
  exact (follows position term found).trans (grows term)

/-- Entries of one term that extend a log are in the line of the term. -/
theorem Follows.append
    {term : τ}
    {added : List τ}
    (follows : Follows line log)
    (same : ∀ other, other ∈ added → other = term)
    (part : log ++ added <+: line term) :
    Follows line (log ++ added) := by
  intro position other found
  by_cases inside : position < log.length
  · rw [List.getElem?_append_left inside] at found
    rw [List.take_append_of_le_length (by omega)]
    exact follows position other found
  · rw [List.getElem?_append_right (Nat.not_lt.mp inside)] at found
    rw [same other (List.mem_of_getElem? found)]
    exact (List.take_prefix _ _).trans part

/-- Two logs with the same entry are the same up to it. -/
theorem Follows.agree
    {position : Nat}
    {term : τ}
    (firstFollows : Follows line first)
    (secondFollows : Follows line second)
    (inFirst : first[position]? = some term)
    (inSecond : second[position]? = some term) :
    first.take (position + 1) = second.take (position + 1) := by
  have firstLength := (List.getElem?_eq_some_iff.mp inFirst).1
  have secondLength := (List.getElem?_eq_some_iff.mp inSecond).1
  have firstPart := firstFollows position term inFirst
  have secondPart := secondFollows position term inSecond
  refine (List.prefix_of_prefix_length_le firstPart secondPart ?_).eq_of_length
    ?_
  · rw [List.length_take, List.length_take]
    omega
  · rw [List.length_take, List.length_take]
    omega

/-- The terms of a log that follows the lines have lines. -/
theorem Follows.line_ne_nil
    {term : τ}
    (follows : Follows line log)
    (held : term ∈ log) :
    line term ≠ [] := by
  obtain ⟨position, found⟩ := List.mem_iff_getElem?.mp held
  intro empty
  have part := follows position term found
  rw [empty, List.prefix_nil, List.take_eq_nil_iff] at part
  rcases part with impossible | rfl
  · cases impossible
  · cases found

/-- A log ends on the line of its last entry. -/
theorem Follows.last
    {term : τ}
    (follows : Follows line log)
    (last : log.getLast? = some term) :
    log <+: line term := by
  rw [List.getLast?_eq_getElem?] at last
  have inside := (List.getElem?_eq_some_iff.mp last).1
  have whole := follows _ term last
  rwa [List.take_of_length_le (by omega)] at whole

end

section

variable {log : List Nat}

theorem getLastD_of_getLast?
    {last : Nat}
    (ends : log.getLast? = some last) :
    log.getLastD 0 = last := by
  rw [List.getLastD_eq_getLast?, ends]
  rfl

theorem getLast?_of_ne_nil
    (nonempty : log ≠ []) :
    ∃ last, log.getLast? = some last :=
  ⟨_, List.getLast?_eq_some_getLast nonempty⟩

theorem ne_nil_of_getLastD_pos
    (positive : 0 < log.getLastD 0) :
    log ≠ [] := by
  rintro rfl
  cases positive

end

/-- The log ends later than the other one, or as late and is as long. -/
def EndsLater (log other : List Nat) : Prop :=
  other.getLastD 0 < log.getLastD 0 ∨
    other.getLastD 0 = log.getLastD 0 ∧ other.length ≤ log.length

/--
What is known of the elections: the line of a won term starts with the log of
the winner, which ends as late as the logs of its voters, and a voter has kept
what it had acknowledged in earlier terms.
-/
structure Elections
    {n : Nat}
    (line base : Nat → List Nat)
    (won : Nat → Prop)
    (voted : Fin n → Nat → Prop)
    (voterLog : Fin n → Nat → List Nat)
    (acked : Fin n → Nat → Nat → Prop) : Prop where
  shape :
    ∀ term, won term →
      ∃ count, line term = base term ++ List.replicate (count + 1) term
  below : ∀ term other, won term → other ∈ base term → other < term
  unwon : ∀ term, ¬ won term → line term = []
  baseFollows : ∀ term, won term → Follows line (base term)
  voterFollows :
    ∀ voter term, voted voter term → Follows line (voterLog voter term)
  elected :
    ∀ term, won term →
      ∃ voters : Finset (Fin n),
        IsMajority voters ∧
          ∀ voter, voter ∈ voters →
            voted voter term ∧ EndsLater (base term) (voterLog voter term)
  retained :
    ∀ voter term index later,
      acked voter term index →
      voted voter later →
      term < later →
      (line term).take index <+: voterLog voter later

/-- A majority has acknowledged the index with an entry of the term. -/
structure Committed
    {n : Nat}
    (line : Nat → List Nat)
    (acked : Fin n → Nat → Nat → Prop)
    (term index : Nat) : Prop where
  quorum :
    ∃ members : Finset (Fin n),
      IsMajority members ∧
        ∀ member, member ∈ members → acked member term index
  positive : 0 < index
  entry : (line term)[index - 1]? = some term

section

variable {n : Nat} {line base : Nat → List Nat} {won : Nat → Prop}
variable {voted : Fin n → Nat → Prop} {voterLog : Fin n → Nat → List Nat}
variable {acked : Fin n → Nat → Nat → Prop}

/-- What has been acknowledged stays so. -/
theorem Committed.mono
    {line' : Nat → List Nat}
    {acked' : Fin n → Nat → Nat → Prop}
    {term index : Nat}
    (committed : Committed line acked term index)
    (grows : ∀ term, line term <+: line' term)
    (more : ∀ member term index, acked member term index →
      acked' member term index) :
    Committed line' acked' term index := by
  obtain ⟨members, majority, acks⟩ := committed.quorum
  refine ⟨⟨members, majority, fun member here =>
    more member term index (acks member here)⟩, committed.positive, ?_⟩
  obtain ⟨rest, whole⟩ := grows term
  have inside := (List.getElem?_eq_some_iff.mp committed.entry).1
  rw [← whole, List.getElem?_append_left inside]
  exact committed.entry

/-- What is committed is in its line. -/
theorem Committed.length_le
    {term index : Nat}
    (committed : Committed line acked term index) :
    index ≤ (line term).length := by
  have inside := (List.getElem?_eq_some_iff.mp committed.entry).1
  omega

/--
The front of the log, up to the index, has been acknowledged by a majority in
a term up to the bound.
-/
def Backed
    (line : Nat → List Nat)
    (acked : Fin n → Nat → Nat → Prop)
    (bound index : Nat)
    (log : List Nat) : Prop :=
  0 < index →
    ∃ term last,
      Committed line acked term last ∧ term ≤ bound ∧ index ≤ last ∧
        (line term).take index <+: log

/-- A backed index stays backed while lines and acknowledgements grow. -/
theorem Backed.mono
    {line' : Nat → List Nat}
    {acked' : Fin n → Nat → Nat → Prop}
    {bound bound' index : Nat}
    {log log' : List Nat}
    (backed : Backed line acked bound index log)
    (grows : ∀ term, line term <+: line' term)
    (more : ∀ member term index, acked member term index →
      acked' member term index)
    (higher : bound ≤ bound')
    (longer : log <+: log') :
    Backed line' acked' bound' index log' := by
  intro positive
  obtain ⟨term, last, committed, bounded, within, part⟩ := backed positive
  refine ⟨term, last, committed.mono grows more, bounded.trans higher, within,
    ?_⟩
  rw [take_of_front (grows term) (within.trans committed.length_le)]
  exact part.trans longer

/-- A shorter front of another log with the same front is backed as well. -/
theorem Backed.shorten
    {bound index shorter : Nat}
    {log other : List Nat}
    (backed : Backed line acked bound index log)
    (within : shorter ≤ index)
    (same : log.take shorter <+: other) :
    Backed line acked bound shorter other := by
  intro positive
  obtain ⟨term, last, committed, bounded, inside, part⟩ :=
    backed (Nat.lt_of_lt_of_le positive within)
  refine ⟨term, last, committed, bounded, within.trans inside, ?_⟩
  have length := committed.length_le
  have front : (line term).take shorter = log.take shorter := by
    rw [take_of_front part (by rw [List.length_take]; omega), List.take_take,
      Nat.min_eq_left within]
  rw [front]
  exact same

namespace Elections

/-- The lines follow themselves. -/
theorem line_follows
    (elections : Elections line base won voted voterLog acked)
    (term : Nat) :
    Follows line (line term) := by
  by_cases wonTerm : won term
  · obtain ⟨count, shape⟩ := elections.shape term wonTerm
    have whole : base term ++ List.replicate (count + 1) term <+:
        line term := by
      rw [← shape]
    have follows := (elections.baseFollows term wonTerm).append
      (fun other here => List.eq_of_mem_replicate here) whole
    rwa [← shape] at follows
  · rw [elections.unwon term wonTerm]
    exact follows_nil

/-- A term with a line has been won. -/
theorem won_of_line
    (elections : Elections line base won voted voterLog acked)
    {term : Nat}
    (some : line term ≠ []) :
    won term := by
  by_contra lost
  exact some (elections.unwon term lost)

/-- An entry of a line that is not of the line's term is in its base. -/
theorem in_base
    (elections : Elections line base won voted voterLog acked)
    {term other position : Nat}
    (found : (line term)[position]? = some other)
    (differs : other ≠ term) :
    position < (base term).length ∧ other < term := by
  have wonTerm : won term := by
    apply elections.won_of_line
    rintro empty
    rw [empty] at found
    cases found
  obtain ⟨count, shape⟩ := elections.shape term wonTerm
  rw [shape] at found
  have inside : position < (base term).length := by
    by_contra outside
    rw [List.getElem?_append_right (Nat.not_lt.mp outside)] at found
    exact differs (List.eq_of_mem_replicate (List.mem_of_getElem? found))
  rw [List.getElem?_append_left inside] at found
  exact ⟨inside, elections.below term other wonTerm
    (List.mem_of_getElem? found)⟩

/-- The entries of a line are of no higher term. -/
theorem le_of_mem_line
    (elections : Elections line base won voted voterLog acked)
    {term other : Nat}
    (held : other ∈ line term) :
    other ≤ term := by
  obtain ⟨position, found⟩ := List.mem_iff_getElem?.mp held
  by_cases same : other = term
  · exact le_of_eq same
  · exact Nat.le_of_lt (elections.in_base found same).2

/-- The last entry of a log is of no lower term than the entries before. -/
theorem le_last
    (elections : Elections line base won voted voterLog acked)
    {log : List Nat}
    (follows : Follows line log)
    {term position : Nat}
    (found : log[position]? = some term) :
    ∃ last, log.getLast? = some last ∧ term ≤ last := by
  cases ends : log.getLast? with
  | none =>
      rw [List.getLast?_eq_none_iff] at ends
      rw [ends] at found
      cases found
  | some last =>
      refine ⟨last, rfl, ?_⟩
      obtain ⟨rest, whole⟩ := follows.last ends
      have inside := (List.getElem?_eq_some_iff.mp found).1
      have inLine : (line last)[position]? = some term := by
        rw [← whole, List.getElem?_append_left inside]
        exact found
      by_cases same : term = last
      · exact le_of_eq same
      · exact Nat.le_of_lt (elections.in_base inLine same).2

/-- The base of a later term has what a majority has acknowledged. -/
theorem complete
    (elections : Elections line base won voted voterLog acked)
    {term index : Nat}
    (committed : Committed line acked term index) :
    ∀ later, term < later → won later →
      (line term).take index <+: base later := by
  obtain ⟨members, quorum, acks⟩ := committed.quorum
  have positive := committed.positive
  have entry := committed.entry
  have length : ((line term).take index).length = index := by
    have inside := (List.getElem?_eq_some_iff.mp entry).1
    rw [List.length_take]
    omega
  have taken : ((line term).take index)[index - 1]? = some term := by
    rw [List.getElem?_take_of_lt (by omega)]
    exact entry
  intro later
  induction later using Nat.strong_induction_on with
  | h later inductionHypothesis =>
      intro higher wonLater
      obtain ⟨voters, majority, votes⟩ := elections.elected later wonLater
      obtain ⟨voter, isMember, isVoter⟩ := quorum.meet majority
      obtain ⟨votedLater, endsLater⟩ := votes voter isVoter
      -- the voter of both majorities had the entry when it voted
      have kept := elections.retained voter term index later
        (acks voter isMember) votedLater higher
      have follows := elections.voterFollows voter later votedLater
      have baseFollows := elections.baseFollows later wonLater
      obtain ⟨rest, whole⟩ := kept
      have inVoter : (voterLog voter later)[index - 1]? = some term := by
        rw [← whole, List.getElem?_append_left (by omega)]
        exact taken
      obtain ⟨last, ends, notBelow⟩ := elections.le_last follows inVoter
      have voterPart := follows.last ends
      rw [EndsLater, getLastD_of_getLast? ends] at endsLater
      rcases endsLater with endsHigher | ⟨sameEnd, longer⟩
      · -- the winner's log ends on the line of a term in between
        obtain ⟨middle, baseEnds⟩ :=
          getLast?_of_ne_nil
            (ne_nil_of_getLastD_pos (Nat.zero_lt_of_lt endsHigher))
        rw [getLastD_of_getLast? baseEnds] at endsHigher
        have held := List.mem_of_getLast? baseEnds
        have wonMiddle :=
          elections.won_of_line (baseFollows.line_ne_nil held)
        have inMiddle := inductionHypothesis middle
          (elections.below later middle wonLater held) (by omega) wonMiddle
        have basePart := baseFollows.last baseEnds
        obtain ⟨count, shape⟩ := elections.shape middle wonMiddle
        have middlePart : base middle <+: line middle :=
          ⟨_, shape.symm⟩
        refine List.prefix_of_prefix_length_le (inMiddle.trans middlePart)
          basePart (inMiddle.length_le.trans ?_)
        by_contra shorter
        have inside : (base later).length - 1 < (base middle).length := by
          omega
        rw [List.getLast?_eq_getElem?] at baseEnds
        obtain ⟨more, lineWhole⟩ := basePart
        have inLine :
            (base middle)[(base later).length - 1]? = some middle := by
          have position := (List.getElem?_eq_some_iff.mp baseEnds).1
          rw [← List.getElem?_append_left inside, ← shape, ← lineWhole,
            List.getElem?_append_left position]
          exact baseEnds
        exact lt_irrefl _ (elections.below middle middle wonMiddle
          (List.mem_of_getElem? inLine))
      · -- both logs end on the same line
        have nonempty : 0 < (base later).length := by
          have inside := (List.getElem?_eq_some_iff.mp inVoter).1
          omega
        obtain ⟨middle, baseEnds⟩ :=
          getLast?_of_ne_nil (List.ne_nil_of_length_pos nonempty)
        rw [getLastD_of_getLast? baseEnds] at sameEnd
        subst sameEnd
        have inBase := List.prefix_of_prefix_length_le voterPart
          (baseFollows.last baseEnds) longer
        rw [← whole] at inBase
        exact (List.prefix_append _ _).trans inBase

/-- What has been acknowledged in a term is in the lines of later terms. -/
theorem committed_in_line
    (elections : Elections line base won voted voterLog acked)
    {term later index position : Nat}
    (committed : Committed line acked term index)
    (wonLater : won later)
    (ordered : term ≤ later)
    (within : position ≤ index) :
    (line later).take position = (line term).take position := by
  rcases Nat.eq_or_lt_of_le ordered with rfl | higher
  · rfl
  · obtain ⟨count, shape⟩ := elections.shape later wonLater
    have part : (line term).take index <+: line later :=
      (elections.complete committed later higher wonLater).trans
        ⟨_, shape.symm⟩
    have length := committed.length_le
    rw [take_of_front part (by rw [List.length_take]; omega), List.take_take,
      Nat.min_eq_left within]

/-- A log that is backed up to a term has the front of that term's line. -/
theorem front_of_backed
    (elections : Elections line base won voted voterLog acked)
    {bound index : Nat}
    {log : List Nat}
    (backed : Backed line acked bound index log)
    (wonBound : won bound) :
    (line bound).take index <+: log := by
  rcases Nat.eq_zero_or_pos index with rfl | positive
  · exact List.nil_prefix
  · obtain ⟨term, last, committed, ordered, within, part⟩ := backed positive
    rw [elections.committed_in_line committed wonBound ordered within]
    exact part

/-- Two logs agree as far as both are backed. -/
theorem backed_agree
    (elections : Elections line base won voted voterLog acked)
    {bound index otherBound otherIndex position : Nat}
    {log other : List Nat}
    (backed : Backed line acked bound index log)
    (otherBacked : Backed line acked otherBound otherIndex other)
    (within : position ≤ index)
    (otherWithin : position ≤ otherIndex) :
    log.take position = other.take position := by
  rcases Nat.eq_zero_or_pos position with rfl | positive
  · rfl
  · obtain ⟨term, last, committed, -, inside, part⟩ :=
      backed (Nat.lt_of_lt_of_le positive within)
    obtain ⟨later, otherLast, otherCommitted, -, otherInside, otherPart⟩ :=
      otherBacked (Nat.lt_of_lt_of_le positive otherWithin)
    have length := committed.length_le
    have otherLength := otherCommitted.length_le
    have front : log.take position = (line term).take position := by
      rw [take_of_front part (by rw [List.length_take]; omega),
        List.take_take, Nat.min_eq_left within]
    have otherFront : other.take position = (line later).take position := by
      rw [take_of_front otherPart (by rw [List.length_take]; omega),
        List.take_take, Nat.min_eq_left otherWithin]
    have wonOf :
        ∀ {term index : Nat}, Committed line acked term index → won term := by
      intro term index committed
      apply elections.won_of_line
      intro empty
      have entry := committed.entry
      rw [empty] at entry
      cases entry
    rw [front, otherFront]
    rcases Nat.le_total term later with ordered | ordered
    · exact (elections.committed_in_line committed (wonOf otherCommitted)
        ordered (within.trans inside)).symm
    · exact elections.committed_in_line otherCommitted (wonOf committed)
        ordered (otherWithin.trans otherInside)

/-- Behind an entry of the line's term there is none of another term. -/
theorem own_behind
    (elections : Elections line base won voted voterLog acked)
    {term position later : Nat}
    (found : (line term)[position]? = some term)
    (behind : position ≤ later)
    (inside : later < (line term).length) :
    (line term)[later]? = some term := by
  rw [List.getElem?_eq_getElem inside]
  by_contra other
  have differs : (line term)[later] ≠ term :=
    fun same => other (congrArg some same)
  have inBase :=
    (elections.in_base (List.getElem?_eq_getElem inside) differs).1
  have wonTerm := elections.won_of_line (List.ne_nil_of_length_pos
    (Nat.zero_lt_of_lt inside))
  obtain ⟨count, shape⟩ := elections.shape term wonTerm
  rw [shape, List.getElem?_append_left (behind.trans_lt inBase)] at found
  exact lt_irrefl term
    (elections.below term term wonTerm (List.mem_of_getElem? found))

/--
Where two logs are backed, an entry that was appended behind the end of its
line comes behind what the lines had before and the other log has kept.
-/
theorem appended_behind
    {line' base' : Nat → List Nat}
    {won' : Nat → Prop}
    {voted' : Fin n → Nat → Prop}
    {voterLog' : Fin n → Nat → List Nat}
    {acked' : Fin n → Nat → Nat → Prop}
    (before : Elections line base won voted voterLog acked)
    (elections : Elections line' base' won' voted' voterLog' acked')
    {bound otherBound index otherIndex last position term otherTerm : Nat}
    {log other : List Nat}
    (backed : Backed line' acked' bound index log)
    (otherBacked : Backed line' acked' otherBound otherIndex other)
    (kept : (line term).take last <+: log)
    (long : last ≤ (line term).length)
    (within : last ≤ index)
    (appended : other[position]? = some otherTerm)
    (otherWithin : position < otherIndex)
    (behind : (line otherTerm).length ≤ position) :
    last ≤ position := by
  by_contra covers
  have inLast : position < last := Nat.lt_of_not_le covers
  have same := congrArg (fun log => log[position]?)
    (elections.backed_agree backed otherBacked (inLast.trans_le within)
      otherWithin)
  rw [List.getElem?_take_of_lt (Nat.lt_succ_self position),
    List.getElem?_take_of_lt (Nat.lt_succ_self position), appended] at same
  have found : (line term)[position]? = some otherTerm := by
    obtain ⟨rest, rfl⟩ := kept
    rw [List.getElem?_append_left (by rw [List.length_take]; omega),
      List.getElem?_take_of_lt inLast] at same
    exact same
  -- the line of the entry's term would have had the entry before
  have reaches :=
    (before.line_follows term position otherTerm found).length_le
  rw [List.length_take] at reaches
  omega

end Elections

end

end NvmeofRaft
