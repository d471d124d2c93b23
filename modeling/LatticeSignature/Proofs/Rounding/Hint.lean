import LatticeSignature.ParameterSet
import LatticeSignature.Proofs.Rounding.Decomposition
import LatticeSignature.Rounding.Hint
import Mathlib.Algebra.Order.Group.Unbundled.Int

/-
  The laws of hints: a hint tells whether a change moved a
  residue to a neighbouring bucket, and using the hint undoes
  the move.

  Main declarations:
    * `Rounding.Buckets.makeHint`, `Rounding.Buckets.useHint`
    * `Rounding.Buckets.restore_eq_ok`
    * `Rounding.Buckets.leaves_eq_decide`
    * `Rounding.Buckets.useHint_leaves`
    * `Rounding.Buckets.leaves_eq_makeHint`
    * `Rounding.Buckets.useHint_makeHint`
    * `Rounding.Buckets.lowBits_sub_within_iff`
    * `Rounding.Buckets.split_emod_eq_ok`
    * `Rounding.Buckets.hints_recover_high_parts`
-/

------------------------------------------------------------
-- Making and Using Hints
------------------------------------------------------------

namespace LatticeSignature

namespace Rounding

namespace Buckets

variable {ε : Type}

/- Whether adding `z` to `r` changes the bucket. -/
def makeHint
    (b : Buckets)
    (z r : Residue) : Bool :=
  b.highBits r != b.highBits (r + z)

/- The bucket of `r`, or its neighbour on the side of `r`. -/
def useHint
    (b : Buckets)
    (hint : Bool)
    (r : Residue) : Int :=
  if hint then
    if b.lowBits r > 0 then
      (b.highBits r + 1) % b.count
    else
      (b.highBits r - 1) % b.count
  else
    b.highBits r

/- A hint leads to one of the buckets. -/
theorem useHint_range
    (b : Buckets)
    (hint : Bool)
    (r : Residue) :
    0 ≤ b.useHint hint r ∧ b.useHint hint r < b.count := by
  have hPos : 0 < b.count := by
    cases b <;> decide
  have hIn := b.inBucket_bits r
  unfold useHint
  split
  · split <;>
    exact ⟨Int.emod_nonneg _ hPos.ne',
      Int.emod_lt_of_pos _ hPos⟩
  · exact ⟨hIn.1, hIn.2.1⟩

/- Neighbours are counted modulo the number of buckets. -/
theorem neighbour_eq_emod
    {b : Buckets}
    {parts : Parts}
    (hLower : 0 ≤ parts.high)
    (hUpper : parts.high < b.count) :
    b.neighbour parts =
      if parts.low > 0 then
        (parts.high + 1) % b.count
      else
        (parts.high - 1) % b.count := by
  cases b with
  | sixteen => rfl
  | fortyFour =>
      simp only [neighbour, count] at *
      split_ifs <;> omega

/- The next bucket is another one, and leads back. -/
theorem next_bucket
    {b : Buckets}
    {high : Int}
    (hHigh : 0 ≤ high ∧ high < b.count) :
    (high + 1) % b.count ≠ high
      ∧ ((high + 1) % b.count - 1) % b.count = high := by
  cases b <;>
  · simp only [count] at *
    omega

/- So does the previous one. -/
theorem previous_bucket
    {b : Buckets}
    {high : Int}
    (hHigh : 0 ≤ high ∧ high < b.count) :
    (high - 1) % b.count ≠ high
      ∧ ((high - 1) % b.count + 1) % b.count = high := by
  cases b <;>
  · simp only [count] at *
    omega

/- Hints are used as the standard says. -/
theorem restore_eq_ok
    (b : Buckets)
    {a : Int}
    (hint : Bool)
    (hLower : 0 ≤ a)
    (hUpper : a < Field.q) :
    (b.restore a hint : Outcome ε Int) =
      .ok (b.useHint hint a) := by
  rcases inBucket_standardParts b hLower hUpper with ⟨hIn, _⟩
  have hVal := Field.val_intCast_of_range hLower hUpper
  unfold restore useHint highBits lowBits
  rw [split_eq_ok b hLower hUpper, hVal]
  change
    Except.ok
      (if hint then
        b.neighbour (b.standardParts a)
      else
        (b.standardParts a).high) = _
  rw [neighbour_eq_emod hIn.1 hIn.2.1]

------------------------------------------------------------
-- Places outside of Their Bucket
------------------------------------------------------------

/- A place above a bucket is in the lower half of the next. -/
theorem bits_of_above
    {b : Buckets}
    {high low : Int}
    {x : Residue}
    (hHigh : 0 ≤ high ∧ high < b.count)
    (hAbove : b.halfWidth < low)
    (hNear : low ≤ 2 * b.halfWidth)
    (hPlace : (b.place high low : Residue) = x) :
    b.highBits x = (high + 1) % b.count ∧ b.lowBits x ≤ 0 := by
  by_cases hLast : high + 1 = b.count
  · have hIn : b.InBucket 0 (low - 2 * b.halfWidth - 1) := by
      unfold InBucket
      have hSize := count_mul_width b
      refine ⟨le_refl 0, ?_, ?_, ?_⟩ <;> omega
    have hSame :
        (b.place 0 (low - 2 * b.halfWidth - 1) : Residue) = x := by
      rw [← hPlace, Residue.intCast_eq_iff]
      unfold place Field.Congruent Field.q
      cases b <;>
      · simp only [halfWidth, count] at *
        omega
    rcases bits_eq_of_inBucket hIn hSame with ⟨hBits, hLow⟩
    rw [hBits, hLow, hLast, Int.emod_self]
    omega
  · have hIn : b.InBucket (high + 1) (low - 2 * b.halfWidth) := by
      unfold InBucket
      refine ⟨?_, ?_, ?_, ?_⟩ <;> omega
    have hSame :
        (b.place (high + 1) (low - 2 * b.halfWidth) : Residue) =
          x := by
      rw [← hPlace]
      congr 1
      unfold place
      ring
    rcases bits_eq_of_inBucket hIn hSame with ⟨hBits, hLow⟩
    rw [hBits, hLow, Int.emod_eq_of_lt (by omega) (by omega)]
    omega

/- A place below a bucket is in the upper half of the last. -/
theorem bits_of_below
    {b : Buckets}
    {high low : Int}
    {x : Residue}
    (hHigh : 0 ≤ high ∧ high < b.count)
    (hBelow :
      low < -b.halfWidth ∨ low = -b.halfWidth ∧ high ≠ 0)
    (hNear : -(2 * b.halfWidth) < low)
    (hPlace : (b.place high low : Residue) = x) :
    b.highBits x = (high - 1) % b.count ∧ 0 < b.lowBits x := by
  by_cases hFirst : high = 0
  · have hIn :
        b.InBucket (b.count - 1) (low + 2 * b.halfWidth + 1) := by
      unfold InBucket
      have hCount : 0 < b.count := by omega
      refine ⟨?_, ?_, ?_, ?_⟩ <;> omega
    have hSame :
        (b.place (b.count - 1) (low + 2 * b.halfWidth + 1)
          : Residue) = x := by
      rw [← hPlace, Residue.intCast_eq_iff]
      unfold place Field.Congruent Field.q
      cases b <;>
      · simp only [halfWidth, count] at *
        omega
    rcases bits_eq_of_inBucket hIn hSame with ⟨hBits, hLow⟩
    refine ⟨?_, by omega⟩
    rw [hBits, hFirst]
    cases b <;> rfl
  · have hIn : b.InBucket (high - 1) (low + 2 * b.halfWidth) := by
      unfold InBucket
      refine ⟨?_, ?_, ?_, ?_⟩ <;> omega
    have hSame :
        (b.place (high - 1) (low + 2 * b.halfWidth) : Residue) =
          x := by
      rw [← hPlace]
      congr 1
      unfold place
      ring
    rcases bits_eq_of_inBucket hIn hSame with ⟨hBits, hLow⟩
    rw [hBits, hLow, Int.emod_eq_of_lt (by omega) (by omega)]
    omega

------------------------------------------------------------
-- Hints for Small Changes
------------------------------------------------------------

/- A place that does not leave its bucket is in it. -/
theorem inBucket_of_leaves_eq_false
    {b : Buckets}
    {high low : Int}
    (hHigh : 0 ≤ high ∧ high < b.count)
    (hStays : b.leaves low high = false) :
    b.InBucket high low := by
  simp only [leaves, Bool.or_eq_false_iff, Bool.and_eq_false_iff,
    decide_eq_false_iff_not, beq_eq_false_iff_ne,
    bne_eq_false_iff_eq] at hStays
  unfold InBucket
  refine ⟨hHigh.1, hHigh.2, ?_, ?_⟩ <;> omega

/- A place that leaves its bucket is above or below it. -/
theorem above_or_below_of_leaves
    {b : Buckets}
    {high low : Int}
    (hLeaves : b.leaves low high = true) :
    b.halfWidth < low
      ∨ (low < -b.halfWidth
        ∨ low = -b.halfWidth ∧ high ≠ 0) := by
  simp only [leaves, Bool.or_eq_true, Bool.and_eq_true,
    decide_eq_true_eq, beq_iff_eq, bne_iff_ne] at hLeaves
  omega

/- A hint tells whether the bucket is another one. -/
theorem leaves_eq_decide
    {b : Buckets}
    {high low : Int}
    {x : Residue}
    (hHigh : 0 ≤ high ∧ high < b.count)
    (hNear : -(2 * b.halfWidth) < low ∧ low < 2 * b.halfWidth)
    (hPlace : (b.place high low : Residue) = x) :
    b.leaves low high = (b.highBits x != high) := by
  cases hLeaves : b.leaves low high with
  | false =>
      have hIn := inBucket_of_leaves_eq_false hHigh hLeaves
      rw [(bits_eq_of_inBucket hIn hPlace).1]
      simp
  | true =>
      symm
      rw [bne_iff_ne]
      rcases above_or_below_of_leaves hLeaves with hSide | hSide
      · rw [(bits_of_above hHigh hSide (by omega) hPlace).1]
        exact (next_bucket hHigh).1
      · rw [(bits_of_below hHigh hSide hNear.1 hPlace).1]
        exact (previous_bucket hHigh).1

/- The hint of a change leads back to the bucket. -/
theorem useHint_leaves
    {b : Buckets}
    {high low : Int}
    {x : Residue}
    (hHigh : 0 ≤ high ∧ high < b.count)
    (hNear : -(2 * b.halfWidth) < low ∧ low < 2 * b.halfWidth)
    (hPlace : (b.place high low : Residue) = x) :
    b.useHint (b.leaves low high) x = high := by
  cases hLeaves : b.leaves low high with
  | false =>
      have hIn := inBucket_of_leaves_eq_false hHigh hLeaves
      exact (bits_eq_of_inBucket hIn hPlace).1
  | true =>
      rw [useHint, if_pos rfl]
      rcases above_or_below_of_leaves hLeaves with hSide | hSide
      · rcases bits_of_above hHigh hSide (by omega) hPlace with
          ⟨hBits, hLow⟩
        rw [if_neg (by omega), hBits]
        exact (next_bucket hHigh).2
      · rcases bits_of_below hHigh hSide hNear.1 hPlace with
          ⟨hBits, hLow⟩
        rw [if_pos hLow, hBits]
        exact (previous_bucket hHigh).2

/- The place of a residue after a change. -/
theorem intCast_place_add
    (b : Buckets)
    (x : Residue)
    (e : Int) :
    (b.place (b.highBits x) (b.lowBits x + e) : Residue) =
      x + e := by
  have hSum :
      b.place (b.highBits x) (b.lowBits x + e) =
        b.place (b.highBits x) (b.lowBits x) + e := by
    unfold place
    ring
  rw [hSum, Int.cast_add, intCast_place_bits]

/- The low part decides the hint of a change back. -/
theorem leaves_eq_makeHint
    {b : Buckets}
    {x : Residue}
    {e : Int}
    (hNear :
      -(2 * b.halfWidth) < b.lowBits x + e
        ∧ b.lowBits x + e < 2 * b.halfWidth) :
    b.leaves (b.lowBits x + e) (b.highBits x) =
      b.makeHint (-e) (x + e) := by
  have hIn := inBucket_bits b x
  rw [leaves_eq_decide ⟨hIn.1, hIn.2.1⟩ hNear
    (intCast_place_add b x e), makeHint, add_neg_cancel_right]

/- The hint of a change back leads to the bucket before it. -/
theorem useHint_makeHint
    {b : Buckets}
    {x : Residue}
    {e : Int}
    (hNear :
      -(2 * b.halfWidth) < b.lowBits x + e
        ∧ b.lowBits x + e < 2 * b.halfWidth) :
    b.useHint (b.makeHint (-e) (x + e)) (x + e) =
      b.highBits x := by
  have hIn := inBucket_bits b x
  rw [← leaves_eq_makeHint hNear]
  exact useHint_leaves ⟨hIn.1, hIn.2.1⟩ hNear
    (intCast_place_add b x e)

------------------------------------------------------------
-- Small Differences
------------------------------------------------------------

/- A place that stays away from the ends keeps its bucket. -/
theorem bits_add_of_inside
    {b : Buckets}
    {x : Residue}
    {e : Int}
    (hLow : -b.halfWidth < b.lowBits x + e)
    (hHigh : b.lowBits x + e ≤ b.halfWidth) :
    b.highBits (x + e) = b.highBits x
      ∧ b.lowBits (x + e) = b.lowBits x + e := by
  have hIn := inBucket_bits b x
  have hMoved : b.InBucket (b.highBits x) (b.lowBits x + e) :=
    ⟨hIn.1, hIn.2.1, hHigh, Or.inl hLow⟩
  exact bits_eq_of_inBucket hMoved (intCast_place_add b x e)

/- A small difference of a place is found at its low part. -/
theorem bits_sub_of_within
    {b : Buckets}
    {x : Residue}
    {bound e : Int}
    (hBound : 0 ≤ bound)
    (hLow :
      Word.Within (b.halfWidth - bound - 1) (b.lowBits x - e)) :
    b.highBits (x - e) = b.highBits x
      ∧ b.lowBits (x - e) = b.lowBits x - e := by
  have hMoved :
      b.highBits (x + (-e : Int)) = b.highBits x
        ∧ b.lowBits (x + (-e : Int)) = b.lowBits x + -e := by
    unfold Word.Within at hLow
    apply bits_add_of_inside <;> omega
  rw [Int.cast_neg, ← sub_eq_add_neg, ← sub_eq_add_neg]
    at hMoved
  exact hMoved

/-
  Whether the low part of a difference is small can be read
  off from the difference of the low part.
-/
theorem lowBits_sub_within_iff
    {b : Buckets}
    {x : Residue}
    {bound e : Int}
    (he : Word.Within bound e) :
    Word.Within (b.halfWidth - bound - 1) (b.lowBits (x - e))
      ↔ Word.Within (b.halfWidth - bound - 1)
          (b.lowBits x - e) := by
  have hBound : 0 ≤ bound := by
    unfold Word.Within at he
    omega
  constructor
  · intro h
    have hBits :
        b.lowBits (x - e + e) = b.lowBits (x - e) + e := by
      unfold Word.Within at *
      exact (bits_add_of_inside (by omega) (by omega)).2
    rw [sub_add_cancel] at hBits
    rw [hBits, add_sub_cancel_right]
    exact h
  · intro h
    rw [(bits_sub_of_within hBound h).2]
    exact h

------------------------------------------------------------
-- Recovery of High Parts
------------------------------------------------------------

/- Remainders are canonical. -/
theorem emod_range
    (a : Int) :
    0 ≤ a % Field.q ∧ a % Field.q < Field.q :=
  ⟨Int.emod_nonneg a (by decide),
    Int.emod_lt_of_pos a (by decide)⟩

/- The parts of a number modulo `q` are those of its residue. -/
theorem split_emod_eq_ok
    (b : Buckets)
    (a : Int) :
    (b.split (a % Field.q) : Outcome ε Parts) =
      .ok ⟨b.highBits a, b.lowBits a⟩ := by
  have hRange := emod_range a
  have hVal : ((a : Residue).val : Int) = a % Field.q :=
    ZMod.val_intCast a
  rw [split_eq_ok b hRange.1 hRange.2, highBits, lowBits, hVal]

/- A hint is used on the remainder of any number. -/
theorem restore_emod_eq_ok
    (b : Buckets)
    (a : Int)
    (hint : Bool) :
    (b.restore (a % Field.q) hint : Outcome ε Int) =
      .ok (b.useHint hint a) := by
  have hRange := emod_range a
  have hResidue : ((a % Field.q : Int) : Residue) = a :=
    ZMod.intCast_mod a 8380417
  rw [restore_eq_ok b hint hRange.1 hRange.2, hResidue]

/-
  The signer changes a residue twice: by `d₁`, which keeps it
  away from the ends of its bucket, and by `d₂`, which may move
  it to a neighbouring bucket.  The hint tells whether it does,
  and leads back from the changed residue to the bucket.
-/
theorem hints_recover_high_parts
    (p : ParameterSet)
    {w : Int}
    (hLower : 0 ≤ w)
    (hUpper : w < Field.q) :
    Outcome.Returns (p.buckets.split w : Outcome ε Parts)
      fun parts =>
        ∀ d₁ d₂ : Int,
          |parts.low + d₁| < p.gamma2 - p.beta →
          |d₂| < p.gamma2 →
            let r := (w + d₁ + d₂) % Field.q
            let hint :=
              p.buckets.leaves (parts.low + d₁ + d₂) parts.high
            (p.buckets.split ((w + d₁) % Field.q)
                : Outcome ε Parts) =
              .ok ⟨parts.high, parts.low + d₁⟩
              ∧ Outcome.Returns
                (p.buckets.split r : Outcome ε Parts)
                (fun changed =>
                  hint = true ↔ changed.high ≠ parts.high)
              ∧ (p.buckets.restore r hint : Outcome ε Int) =
                .ok parts.high := by
  have hSplit :=
    split_emod_eq_ok (ε := ε) p.buckets w
  rw [Int.emod_eq_of_lt hLower hUpper] at hSplit
  refine ⟨_, hSplit, ?_⟩
  dsimp only
  intro d₁ d₂ hFirst hSecond
  have hIn := inBucket_bits p.buckets w
  have hBeta : (0 : Int) ≤ p.beta := Int.natCast_nonneg _
  unfold ParameterSet.gamma2 at hFirst hSecond
  rw [abs_lt] at hFirst hSecond
  have hNear :
      -(2 * p.buckets.halfWidth)
          < p.buckets.lowBits w + (d₁ + d₂)
        ∧ p.buckets.lowBits w + (d₁ + d₂)
          < 2 * p.buckets.halfWidth := by
    omega
  have hPlace :
      (p.buckets.place (p.buckets.highBits w)
          (p.buckets.lowBits w + (d₁ + d₂)) : Residue) =
        ((w + d₁ + d₂ : Int) : Residue) := by
    rw [intCast_place_add]
    push_cast
    ring
  rw [add_assoc (p.buckets.lowBits w) d₁ d₂]
  refine ⟨?_, ⟨_, split_emod_eq_ok p.buckets _, ?_⟩, ?_⟩
  · have hInside :=
      bits_add_of_inside (b := p.buckets) (x := w) (e := d₁)
        (by omega) (by omega)
    rw [split_emod_eq_ok, Int.cast_add, hInside.1, hInside.2]
  · rw [leaves_eq_decide ⟨hIn.1, hIn.2.1⟩ hNear hPlace]
    exact bne_iff_ne
  · rw [restore_emod_eq_ok,
      useHint_leaves ⟨hIn.1, hIn.2.1⟩ hNear hPlace]

/- A change that leads from the last bucket to the first one. -/
theorem hints_recover_last_bucket :
    (0 : Int) ≤ 8284952
      ∧ (8284952 : Int) < Field.q
      ∧ (ParameterSet.mldsa44.buckets.split 8284952
          : Outcome Empty Parts) =
        .ok ⟨43, 95000⟩
      ∧ |(95000 : Int) + 78|
          < ParameterSet.mldsa44.gamma2
            - ParameterSet.mldsa44.beta
      ∧ |(95231 : Int)| < ParameterSet.mldsa44.gamma2
      ∧ ParameterSet.mldsa44.buckets.leaves 190309 43 = true
      ∧ (ParameterSet.mldsa44.buckets.split 8380261
          : Outcome Empty Parts) =
        .ok ⟨0, -156⟩
      ∧ (ParameterSet.mldsa44.buckets.restore 8380261 true
          : Outcome Empty Int) =
        .ok 43 := by
  have hLower : (0 : Int) ≤ 8284952 := by decide
  have hUpper : (8284952 : Int) < Field.q := by decide
  have hSplit :
      (ParameterSet.mldsa44.buckets.split 8284952
          : Outcome Empty Parts) =
        .ok ⟨43, 95000⟩ := by
    decide
  have hFirst :
      |(95000 : Int) + 78|
        < ParameterSet.mldsa44.gamma2
          - ParameterSet.mldsa44.beta := by
    decide
  have hSecond :
      |(95231 : Int)| < ParameterSet.mldsa44.gamma2 := by
    decide
  have hChanged :
      (ParameterSet.mldsa44.buckets.split 8380261
          : Outcome Empty Parts) =
        .ok ⟨0, -156⟩ := by
    decide
  rcases (hints_recover_high_parts (ε := Empty) .mldsa44 hLower
      hUpper).of_eq_ok hSplit 78 95231 hFirst hSecond with
    ⟨_, hHint, hRestore⟩
  have hSet :
      ParameterSet.mldsa44.buckets.leaves 190309 43 = true :=
    (hHint.of_eq_ok hChanged).2 (by decide)
  exact
    ⟨hLower, hUpper, hSplit, hFirst, hSecond, hSet, hChanged,
      hRestore⟩

end Buckets

end Rounding

end LatticeSignature
