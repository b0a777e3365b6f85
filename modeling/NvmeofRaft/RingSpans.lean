import Mathlib.Data.List.Basic
import Mathlib.Order.Nat

namespace NvmeofRaft

/-!
# Spans laid around a ring

Spans are laid one behind the other around a ring of cells; one that does not
fit in front of the ring end is laid at its start.  As long as the ring end is
passed at most once since the oldest span and no new span reaches the oldest
one, all of them are disjoint.
-/

/-- A range of cells. -/
structure Span where
  start : Nat
  length : Nat
  deriving Repr, DecidableEq

namespace Span

/-- The cell behind the span. -/
def stop (span : Span) : Nat :=
  span.start + span.length

/-- No cell belongs to both spans. -/
def Apart (first second : Span) : Prop :=
  first.stop ≤ second.start ∨ second.stop ≤ first.start

instance (first second : Span) : Decidable (first.Apart second) :=
  inferInstanceAs (Decidable (_ ∨ _))

theorem Apart.symm
    {first second : Span}
    (apart : first.Apart second) :
    second.Apart first :=
  Or.symm apart

end Span

/-- The spans lie between two cells, each in front of the next one. -/
structure Ascends
    (low high : Nat)
    (spans : List Span) : Prop where
  inside : ∀ span ∈ spans, low ≤ span.start ∧ span.stop ≤ high
  ordered : spans.Pairwise fun first second => first.stop ≤ second.start

namespace Ascends

variable {low high : Nat} {spans : List Span}

theorem nil : Ascends low high [] :=
  ⟨fun _ member => absurd member List.not_mem_nil, .nil⟩

theorem append
    {bound : Nat}
    {span : Span}
    (ascends : Ascends low high spans)
    (lower : low ≤ span.start)
    (behind : high ≤ span.start)
    (inside : span.stop ≤ bound) :
    Ascends low bound (spans ++ [span]) := by
  have starts : span.start ≤ span.stop := Nat.le_add_right _ _
  constructor
  · intro other member
    rcases List.mem_append.mp member with old | new
    · obtain ⟨above, below⟩ := ascends.inside other old
      exact ⟨above, by omega⟩
    · rw [List.mem_singleton.mp new]
      exact ⟨lower, inside⟩
  · refine List.pairwise_append.mpr
      ⟨ascends.ordered, List.pairwise_singleton _ _, ?_⟩
    intro other old new member
    rw [List.mem_singleton.mp member]
    exact (ascends.inside other old).2.trans behind

/-- The spans start at the first one. -/
theorem fromFirst
    {first : Span}
    {rest : List Span}
    (ascends : Ascends low high (first :: rest)) :
    Ascends first.start high (first :: rest) := by
  refine ⟨fun span member => ?_, ascends.ordered⟩
  refine ⟨?_, (ascends.inside span member).2⟩
  rcases List.mem_cons.mp member with same | later
  · exact Nat.le_of_eq (congrArg Span.start same).symm
  · have behind := (List.pairwise_cons.mp ascends.ordered).1 span later
    exact (Nat.le_add_right _ _).trans behind

theorem weaken
    {bound : Nat}
    (ascends : Ascends low high spans)
    (below : high ≤ bound) :
    Ascends low bound spans :=
  ⟨fun span member =>
    ⟨(ascends.inside span member).1,
      (ascends.inside span member).2.trans below⟩,
    ascends.ordered⟩

theorem drop
    (ascends : Ascends low high spans)
    (count : Nat) :
    Ascends low high (spans.drop count) :=
  ⟨fun span member => ascends.inside span (List.mem_of_mem_drop member),
    ascends.ordered.drop⟩

end Ascends

/--
The spans around the ring, from the oldest one on: none lies between the tail
and the limit.  Before the ring end has been passed they lie between the limit
and the tail; afterwards the later ones lie at the start, up to the tail.
-/
inductive Laid
    (size limit tail : Nat) :
    Bool → List Span → Prop
  | straight
      {spans : List Span}
      (ascends : Ascends limit tail spans)
      (above : limit ≤ tail)
      (inRing : tail ≤ size) :
      Laid size limit tail false spans
  | wrapped
      {ahead behind : List Span}
      (ascends : Ascends limit size ahead)
      (starts : Ascends 0 tail behind)
      (first : ∃ span ∈ behind, span.start = 0)
      (below : tail ≤ limit) :
      Laid size limit tail true (ahead ++ behind)

/-- Whether a length passes the ring end. -/
def passesEnd (size tail length : Nat) : Bool :=
  decide (tail + length > size)

/-- Where the next span of a length is laid. -/
def laidAt (size tail length : Nat) : Nat :=
  if tail + length > size then 0 else tail

/--
The next span fits: the ring end is not passed a second time, and behind it
the span stays in front of the limit.
-/
def fitsNext
    (size limit tail : Nat)
    (wrapped : Bool)
    (length : Nat) :
    Bool :=
  let passes := passesEnd size tail length
  !(wrapped && passes) &&
    (!(wrapped || passes) ||
      decide (laidAt size tail length + length ≤ limit))

/-- Spans of the given lengths fit one after the other. -/
def roomFor
    (size limit : Nat) :
    Nat → Bool → List Nat → Bool
  | _, _, [] =>
      true
  | tail, wrapped, length :: rest =>
      fitsNext size limit tail wrapped length &&
        roomFor size limit (laidAt size tail length + length)
          (wrapped || passesEnd size tail length) rest

namespace Laid

variable {size limit tail length : Nat} {wrapped : Bool}
variable {spans : List Span}

/-- All spans are inside the ring. -/
theorem inRing
    (laid : Laid size limit tail wrapped spans)
    (bounded : limit ≤ size) :
    ∀ span ∈ spans, span.stop ≤ size := by
  intro span member
  cases laid with
  | straight ascends _ inRing =>
      exact (ascends.inside span member).2.trans inRing
  | wrapped ascends starts _ below =>
      rcases List.mem_append.mp member with early | late
      · exact (ascends.inside span early).2
      · exact ((starts.inside span late).2.trans below).trans bounded

/-- No two spans share a cell. -/
theorem apart
    (laid : Laid size limit tail wrapped spans) :
    spans.Pairwise Span.Apart := by
  cases laid with
  | straight ascends _ _ =>
      exact ascends.ordered.imp Or.inl
  | wrapped ascends starts _ below =>
      refine List.pairwise_append.mpr
        ⟨ascends.ordered.imp Or.inl, starts.ordered.imp Or.inl, ?_⟩
      intro early member late member'
      have above := (ascends.inside early member).1
      have stops := (starts.inside late member').2
      exact Or.inr ((stops.trans below).trans above)

/-- The tail stays inside the ring. -/
theorem tail_le
    (laid : Laid size limit tail wrapped spans)
    (bounded : limit ≤ size) :
    tail ≤ size := by
  cases laid with
  | straight _ _ inRing =>
      exact inRing
  | wrapped _ _ _ below =>
      exact below.trans bounded

/-- The oldest spans are given up. -/
theorem drop
    (laid : Laid size limit tail wrapped spans)
    (bounded : limit ≤ size)
    (count : Nat) :
    ∃ limit' wrapped',
      limit' ≤ size ∧ Laid size limit' tail wrapped' (spans.drop count) := by
  have inRing := laid.tail_le bounded
  cases laid with
  | straight ascends above _ =>
      exact ⟨limit, false, bounded,
        .straight (ascends.drop count) above inRing⟩
  | @wrapped ahead behind ascends starts first below =>
      rcases Nat.lt_or_ge count ahead.length with early | late
      · rw [List.drop_append_of_le_length (Nat.le_of_lt early)]
        exact ⟨limit, true, bounded,
          .wrapped (ascends.drop count) starts first below⟩
      · rw [List.drop_append, List.drop_of_length_le late, List.nil_append]
        exact ⟨0, false, Nat.zero_le _,
          .straight (starts.drop _) (Nat.zero_le _) inRing⟩

/-- The limit can be moved on to the oldest span. -/
theorem fromOldest
    {oldest : Span}
    {rest : List Span}
    (laid : Laid size limit tail wrapped (oldest :: rest))
    (bounded : limit ≤ size)
    (some : 0 < oldest.length) :
    Laid size oldest.start tail (decide (tail ≤ oldest.start))
      (oldest :: rest) := by
  have straight :
      ∀ {low},
        Ascends low tail (oldest :: rest) →
        Laid size oldest.start tail (decide (tail ≤ oldest.start))
          (oldest :: rest) := by
    intro low ascends
    have stops : oldest.start + oldest.length ≤ tail :=
      (ascends.inside oldest List.mem_cons_self).2
    rw [decide_eq_false (by omega)]
    exact .straight ascends.fromFirst (by omega) (laid.tail_le bounded)
  generalize spans : oldest :: rest = list at laid
  cases laid with
  | straight ascends _ _ =>
      subst spans
      exact straight ascends
  | @wrapped ahead behind ascends starts first below =>
      cases ahead with
      | nil =>
          have starts : Ascends 0 tail (oldest :: rest) := spans ▸ starts
          exact spans ▸ straight starts
      | cons head later =>
          obtain ⟨rfl, rfl⟩ := List.cons.inj spans
          have above := (ascends.inside oldest List.mem_cons_self).1
          rw [decide_eq_true (below.trans above)]
          exact .wrapped ascends.fromFirst starts first (below.trans above)

/-- The first span of an empty ring. -/
theorem single
    (inRing : laidAt size tail length + length ≤ size) :
    Laid size (laidAt size tail length) (laidAt size tail length + length)
      false [⟨laidAt size tail length, length⟩] :=
  .straight
    (Ascends.nil.append (Nat.le_refl _) (Nat.le_refl _) (Nat.le_refl _))
    (Nat.le_add_right _ _) inRing

/-- A span that fits. -/
theorem lay
    (laid : Laid size limit tail wrapped spans)
    (fits : fitsNext size limit tail wrapped length = true) :
    Laid size limit (laidAt size tail length + length)
      (wrapped || passesEnd size tail length)
      (spans ++ [⟨laidAt size tail length, length⟩]) := by
  unfold fitsNext passesEnd laidAt at *
  cases laid with
  | straight ascends above inRing =>
      split_ifs at fits ⊢ with passes
      · have fits : 0 + length ≤ limit := by simpa [passes] using fits
        have first : Ascends 0 (0 + length) [⟨0, length⟩] :=
          Ascends.nil.append (Nat.le_refl 0) (Nat.le_refl 0) (Nat.le_refl _)
        rw [decide_eq_true passes]
        exact .wrapped (ascends.weaken inRing) first
          ⟨_, List.mem_singleton_self _, rfl⟩ fits
      · rw [decide_eq_false passes]
        exact .straight
          (ascends.append above (Nat.le_refl _) (Nat.le_refl _))
          (Nat.le_add_right_of_le above) (Nat.le_of_not_gt passes)
  | wrapped ascends starts first below =>
      split_ifs at fits ⊢ with passes
      · simp [passes] at fits
      · have fits : tail + length ≤ limit := by simpa [passes] using fits
        obtain ⟨span, member, zero⟩ := first
        rw [List.append_assoc]
        exact .wrapped ascends
          (starts.append (Nat.zero_le _) (Nat.le_refl _) (Nat.le_refl _))
          ⟨span, List.mem_append_left _ member, zero⟩ fits

/-- A span that does not fit meets another one. -/
theorem crowds
    {oldest : Span}
    (laid : Laid size oldest.start tail wrapped spans)
    (member : oldest ∈ spans)
    (positive : ∀ span ∈ spans, 0 < span.length)
    (some : 0 < length)
    (tight : fitsNext size oldest.start tail wrapped length = false) :
    ∃ span ∈ spans, ¬ span.Apart ⟨laidAt size tail length, length⟩ := by
  have grows := positive oldest member
  unfold fitsNext passesEnd laidAt at *
  cases laid with
  | straight ascends above inRing =>
      split_ifs at tight ⊢ with passes
      · have tight : oldest.start < 0 + length := by
          simpa [passes] using tight
        refine ⟨oldest, member, ?_⟩
        unfold Span.Apart Span.stop
        dsimp only
        omega
      · simp [passes] at tight
  | @wrapped ahead behind ascends starts first below =>
      split_ifs at tight ⊢ with passes
      · obtain ⟨span, late, zero⟩ := first
        have held := List.mem_append_right ahead late
        have grows := positive span held
        refine ⟨span, held, ?_⟩
        unfold Span.Apart Span.stop
        dsimp only
        omega
      · have tight : oldest.start < tail + length := by
          simpa [passes] using tight
        refine ⟨oldest, member, ?_⟩
        unfold Span.Apart Span.stop
        dsimp only
        omega

end Laid

/-- The spans laid one after the other. -/
def laidSpans (size : Nat) : Nat → List Nat → List Span
  | _, [] =>
      []
  | tail, length :: rest =>
      ⟨laidAt size tail length, length⟩ ::
        laidSpans size (laidAt size tail length + length) rest

/-- The cell behind the spans laid one after the other. -/
def laidTail (size : Nat) : Nat → List Nat → Nat
  | tail, [] =>
      tail
  | tail, length :: rest =>
      laidTail size (laidAt size tail length + length) rest

namespace Laid

variable {size : Nat}

/-- Spans that fit. -/
theorem layAll
    {limit : Nat}
    (lengths : List Nat) :
    ∀ {tail wrapped spans},
      Laid size limit tail wrapped spans →
      roomFor size limit tail wrapped lengths = true →
      ∃ wrapped',
        Laid size limit (laidTail size tail lengths) wrapped'
          (spans ++ laidSpans size tail lengths) := by
  induction lengths with
  | nil =>
      intro tail wrapped spans laid room
      rw [laidSpans, List.append_nil]
      exact ⟨wrapped, laid⟩
  | cons length rest inductionHypothesis =>
      intro tail wrapped spans laid room
      obtain ⟨fits, room⟩ := Bool.and_eq_true_iff.mp room
      have longer := inductionHypothesis (laid.lay fits) room
      rw [List.append_assoc] at longer
      exact longer

/-- Spans that do not fit meet another one. -/
theorem crowdsAll
    {oldest : Span}
    (lengths : List Nat) :
    ∀ {tail wrapped spans},
      Laid size oldest.start tail wrapped spans →
      oldest ∈ spans →
      (∀ span ∈ spans, 0 < span.length) →
      (∀ length ∈ lengths, 0 < length) →
      roomFor size oldest.start tail wrapped lengths = false →
      ¬ (spans ++ laidSpans size tail lengths).Pairwise Span.Apart := by
  induction lengths with
  | nil =>
      intro tail wrapped spans laid member positive some tight
      cases tight
  | cons length rest inductionHypothesis =>
      intro tail wrapped spans laid member positive some tight apart
      have some' := some length List.mem_cons_self
      cases fits : fitsNext size oldest.start tail wrapped length with
      | true =>
          rw [roomFor, fits, Bool.true_and] at tight
          have positive' :
              ∀ span ∈ spans ++ [⟨laidAt size tail length, length⟩],
                0 < span.length := by
            intro span member
            rcases List.mem_append.mp member with old | new
            · exact positive span old
            · rw [List.mem_singleton.mp new]
              exact some'
          refine inductionHypothesis (laid.lay fits)
            (List.mem_append_left _ member) positive'
            (fun other later => some other (List.mem_cons_of_mem _ later))
            tight ?_
          rw [List.append_assoc]
          exact apart
      | false =>
          obtain ⟨span, held, meets⟩ :=
            laid.crowds member positive some' fits
          have apart := (List.pairwise_append.mp apart).2.2
          exact meets (apart span held _ List.mem_cons_self)

end Laid

/--
Spans of the given lengths fit behind the tail: counted from the oldest span,
or from the first new one when there is none, they pass the ring end at most
once and stay in front of where they started.
-/
def roomBehind
    (size tail : Nat) :
    Option Span → List Nat → Bool
  | some oldest, lengths =>
      roomFor size oldest.start tail (decide (tail ≤ oldest.start)) lengths
  | none, [] =>
      true
  | none, length :: rest =>
      let start := laidAt size tail length
      decide (start + length ≤ size) &&
        roomFor size start (start + length) false rest

namespace Laid

variable {size limit tail : Nat} {wrapped : Bool} {spans : List Span}
variable {lengths : List Nat}
variable (laid : Laid size limit tail wrapped spans)
variable (bounded : limit ≤ size)
variable (positive : ∀ span ∈ spans, 0 < span.length)

include laid bounded positive

/-- Spans for which there is room. -/
theorem layBehind
    (room : roomBehind size tail spans.head? lengths = true) :
    ∃ limit' wrapped',
      limit' ≤ size ∧
        Laid size limit' (laidTail size tail lengths) wrapped'
          (spans ++ laidSpans size tail lengths) := by
  cases spans with
  | nil =>
      cases lengths with
      | nil =>
          exact ⟨limit, wrapped, bounded, laid⟩
      | cons length rest =>
          obtain ⟨inRing, room⟩ := Bool.and_eq_true_iff.mp room
          have inRing := of_decide_eq_true inRing
          obtain ⟨wrapped', longer⟩ := (single inRing).layAll rest room
          exact ⟨_, wrapped', (Nat.le_add_right _ _).trans inRing, longer⟩
  | cons oldest rest =>
      have grows := positive oldest List.mem_cons_self
      have inRing : oldest.start + oldest.length ≤ size :=
        laid.inRing bounded oldest List.mem_cons_self
      obtain ⟨wrapped', longer⟩ :=
        (laid.fromOldest bounded grows).layAll lengths room
      exact ⟨oldest.start, wrapped', by omega, longer⟩

/-- Spans for which there is no room leave the ring or meet another one. -/
theorem crowdsBehind
    (some : ∀ length ∈ lengths, 0 < length)
    (tight : roomBehind size tail spans.head? lengths = false) :
    ¬ ((∀ span ∈ spans ++ laidSpans size tail lengths,
          span.stop ≤ size) ∧
        (spans ++ laidSpans size tail lengths).Pairwise Span.Apart) := by
  rintro ⟨inside, apart⟩
  cases spans with
  | nil =>
      cases lengths with
      | nil =>
          cases tight
      | cons length rest =>
          have inRing : laidAt size tail length + length ≤ size :=
            inside _ List.mem_cons_self
          have tight :
              roomFor size (laidAt size tail length)
                (laidAt size tail length + length) false rest = false := by
            rw [List.head?_nil, roomBehind, decide_eq_true inRing,
              Bool.true_and] at tight
            exact tight
          refine crowdsAll rest (single inRing) (List.mem_singleton_self _)
            ?_ (fun other later => some other (List.mem_cons_of_mem _ later))
            tight apart
          intro span member
          rw [List.mem_singleton.mp member]
          exact some length List.mem_cons_self
  | cons oldest rest =>
      have grows := positive oldest List.mem_cons_self
      exact crowdsAll lengths (laid.fromOldest bounded grows)
        List.mem_cons_self positive some tight apart

end Laid

end NvmeofRaft
