import LatticeSignature.Proofs.Field.Reduction
import LatticeSignature.Proofs.Word

/-
  The reductions as sequences of word operations, and the ends
  of the domains on which they keep their ranges.  A long word
  in `[-2^31 q, 2^31 q]` is divided into `(-q, q)`, and a word
  of at most `2^31 - 2^22 - 1` is reduced to a magnitude of at
  most 6283008, each with one exception.

  Main declarations:
    * `Field.Words.montgomeryReduce`, `Field.Words.reduce`
    * `Field.Words.liftNegative`, `Field.Words.canonical`
    * `Field.montgomeryReduce_reaches_modulus`
    * `Field.reduce_exceeds_bound_once`
-/

------------------------------------------------------------
-- Reductions by Shifts and Masks
------------------------------------------------------------

namespace LatticeSignature

namespace Field

namespace Words

open Outcome

variable {ε : Type}

/-
  Divide a long word by `2^32` modulo `q`.  The product with
  the inverse of the modulus wraps, and what is left after the
  subtraction is moved down by one word.
-/
def montgomeryReduce
    (a : Int) : Outcome ε Int := do
  let t := Word.wrapMul32 (Word.lowHalf a) inverseOfModulus
  let multiple ← Word.mul64 t q
  let d ← Word.sub64 a multiple
  return Word.lowHalf (Word.shiftRight64 d 32)

/- Count the units of `2^23` by a rounding shift. -/
def reduce
    (a : Int) : Outcome ε Int := do
  let shifted ← Word.add32 a 4194304
  let multiple ← Word.mul32 (Word.shiftRight shifted bits) q
  Word.sub32 a multiple

/- Add the modulus under the mask of the sign. -/
def liftNegative
    (a : Int) : Outcome ε Int :=
  Word.add32 a (Word.and32 (Word.shiftRight a 31) q)

/- Reduce a word and lift the result. -/
def canonical
    (a : Int) : Outcome ε Int := do
  let r ← reduce a
  liftNegative r

theorem montgomeryReduce_eq
    (a : Int) :
    (montgomeryReduce a : Outcome ε Int) =
      Field.montgomeryReduce a := by
  dsimp only [montgomeryReduce, Field.montgomeryReduce]
  rw [Word.lowHalf_eq, Word.wrapMul32_eq]
  refine bind_congr_of_eq_ok fun multiple _ => ?_
  refine bind_congr_of_eq_ok fun d hd => ?_
  rw [Word.lowHalf_eq,
    Word.shiftRight64_eq (Word.fits_of_check64 hd)]
  rfl

theorem reduce_eq
    (a : Int) :
    (reduce a : Outcome ε Int) = Field.reduce a := by
  refine bind_congr_of_eq_ok fun shifted hShifted => ?_
  rw [Word.shiftRight_eq (Word.fits_of_check32 hShifted)]
  rfl

/- The sum of a negative word and the modulus is a word. -/
theorem liftNegative_eq
    {a : Int}
    (h : Word.Fits32 a) :
    (liftNegative a : Outcome ε Int) =
      .ok (Field.liftNegative a) := by
  have hSum :
      a + (if a < 0 then q else 0) = Field.liftNegative a := by
    unfold Field.liftNegative
    split
    · rfl
    · exact add_zero a
  rw [liftNegative, Word.and32_sign h (by decide), Word.add32,
    hSum]
  apply Word.check32_eq_ok
  unfold Field.liftNegative q
  unfold Word.Fits32 at *
  split <;> omega

/- What the reduction returns is the result of a check. -/
theorem fits_of_reduce
    {a r : Int}
    (h : (Field.reduce a : Outcome ε Int) = .ok r) :
    Word.Fits32 r := by
  rcases (bind_eq_ok_iff _ _ _).1 h with ⟨shifted, _, hRest⟩
  rcases (bind_eq_ok_iff _ _ _).1 hRest with ⟨multiple, _, hLast⟩
  exact Word.fits_of_check32 hLast

theorem canonical_eq
    (a : Int) :
    (canonical a : Outcome ε Int) = Field.canonical a := by
  rw [canonical, reduce_eq]
  refine bind_congr_of_eq_ok fun r hr => ?_
  exact liftNegative_eq (fits_of_reduce hr)

end Words

------------------------------------------------------------
-- The Ends of the Domains
------------------------------------------------------------

open Outcome

variable {ε : Type}

/-
  Between `-2^31 q` and `2^31 q`, both ends included, a long
  word is divided by `2^32` modulo `q`, and no step leaves its
  word.  The result is above `-q` and below `q`, except at the
  upper end, where it is `q`.
-/
theorem montgomeryReduce_reaches_modulus
    {a : Int}
    (hLower : -(2 ^ 31 * q) ≤ a)
    (hUpper : a ≤ 2 ^ 31 * q) :
    (Words.montgomeryReduce a : Outcome ε Int) =
        montgomeryReduce a
      ∧ Returns (montgomeryReduce a : Outcome ε Int) fun r =>
        Congruent (r * 2 ^ 32) a
          ∧ -q < r
          ∧ r ≤ q
          ∧ (r = q ↔ a = 2 ^ 31 * q) := by
  have hEnd : 2 ^ 31 * q = 2147483648 * q := by
    norm_num
  rw [hEnd] at hLower hUpper ⊢
  refine ⟨Words.montgomeryReduce_eq a, ?_⟩
  refine (montgomeryReduce_returns hLower hUpper).mono ?_
  rintro r ⟨t, htLow, htHigh, hExact⟩
  have hResidue : Congruent (r * 2 ^ 32) a := by
    have hShifted : r * 2 ^ 32 = a - q * t := by
      linarith
    rw [hShifted]
    exact Int.sub_mul_emod_self_left a q t
  unfold q at *
  refine ⟨hResidue, by omega, by omega, ?_, ?_⟩
  · intro hModulus
    omega
  · intro hArgument
    -- As the modulus is odd, no other word leaves a multiple
    -- of `2^32`.
    have hLeast : t = -2147483648 := by
      omega
    omega

/- At the upper end the result is not below the modulus. -/
theorem montgomeryReduce_of_upper_end :
    -(2 ^ 31 * q) ≤ 2 ^ 31 * q
      ∧ 2 ^ 31 * q ≤ 2 ^ 31 * q
      ∧ (montgomeryReduce (2 ^ 31 * q) : Outcome Empty Int) =
        .ok q := by
  have hLower : -(2 ^ 31 * q) ≤ 2 ^ 31 * q := by
    decide
  have hUpper : 2 ^ 31 * q ≤ 2 ^ 31 * q :=
    le_refl _
  rcases montgomeryReduce_reaches_modulus (ε := Empty) hLower
      hUpper with
    ⟨_, r, hOk, _, _, _, hEnd⟩
  refine ⟨hLower, hUpper, ?_⟩
  rw [hOk, hEnd.2 rfl]

/-
  A word of at most `2^31 - 2^22 - 1` is reduced without an
  overflow, however low it is.  The result is at most 6283008
  and at least -6283008, except at `-2^31 + 2^22`, where it is
  one less.  The canonical representative is the remainder at
  that word, too.
-/
theorem reduce_exceeds_bound_once
    {a : Int}
    (hFits : Word.Fits32 a)
    (hUpper : a ≤ 2 ^ 31 - 2 ^ 22 - 1) :
    (Words.reduce a : Outcome ε Int) = reduce a
      ∧ (Words.canonical a : Outcome ε Int) = canonical a
      ∧ Returns (reduce a : Outcome ε Int) (fun r =>
        Congruent r a
          ∧ -6283009 ≤ r
          ∧ r ≤ 6283008
          ∧ (r = -6283009 ↔ a = -2 ^ 31 + 2 ^ 22))
      ∧ (canonical a : Outcome ε Int) = .ok (a % q) := by
  have hLimit : (2 ^ 31 - 2 ^ 22 - 1 : Int) = 2143289343 := by
    norm_num
  have hPoint : (-2 ^ 31 + 2 ^ 22 : Int) = -2143289344 := by
    norm_num
  rw [hLimit] at hUpper
  rw [hPoint]
  refine ⟨Words.reduce_eq a, Words.canonical_eq a, ?_,
    canonical_eq_ok hFits hUpper⟩
  rw [reduce_eq_ok hFits hUpper]
  refine returns_ok ⟨Int.sub_mul_emod_self_right _ _ _, ?_⟩
  unfold Word.Fits32 at hFits
  obtain ⟨t, ht⟩ : ∃ t, t = (a + 4194304) / 8388608 :=
    ⟨_, rfl⟩
  have hHalf :
      -4194304 ≤ a - t * 8388608
        ∧ a - t * 8388608 ≤ 4194303 := by
    omega
  -- Below the lowest unit with two halves there is one more
  -- unit, of which words have the upper half only.
  have hUnits :
      t ≤ 255
        ∧ (-255 ≤ t ∨ t = -256 ∧ 0 ≤ a - t * 8388608) := by
    omega
  have hSplit :
      a - t * q = (a - t * 8388608) + t * 8191 := by
    unfold q
    ring
  rw [← ht, hSplit]
  omega

/- Halfway between the two lowest units the bound is exceeded. -/
theorem reduce_of_low_half :
    Word.Fits32 (-2 ^ 31 + 2 ^ 22)
      ∧ (-2 ^ 31 + 2 ^ 22 : Int) ≤ 2 ^ 31 - 2 ^ 22 - 1
      ∧ (reduce (-2 ^ 31 + 2 ^ 22) : Outcome Empty Int) =
        .ok (-6283009)
      ∧ (canonical (-2 ^ 31 + 2 ^ 22) : Outcome Empty Int) =
        .ok 2097408 := by
  have hFits : Word.Fits32 (-2 ^ 31 + 2 ^ 22) := by
    decide
  have hUpper :
      (-2 ^ 31 + 2 ^ 22 : Int) ≤ 2 ^ 31 - 2 ^ 22 - 1 := by
    decide
  rcases reduce_exceeds_bound_once (ε := Empty) hFits hUpper with
    ⟨_, _, ⟨r, hOk, _, _, _, hEnd⟩, hCanonical⟩
  refine ⟨hFits, hUpper, ?_, ?_⟩
  · rw [hOk, hEnd.2 rfl]
  · rw [hCanonical]
    rfl

end Field

end LatticeSignature
