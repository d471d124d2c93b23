import LatticeSignature.Proofs.Rounding.Decomposition
import LatticeSignature.Proofs.Word

/-
  A residue is split without branches: words are shifted, and
  a word of sign bits masks what a branch would leave out.
  The parts are those of a division by the width of a bucket,
  with a remainder centred at zero.

  Main declarations:
    * `Rounding.Buckets.maskedSplit`
    * `Rounding.Buckets.maskedSplit_eq_split`
    * `Rounding.Buckets.IsCentred`
    * `Rounding.Buckets.split_follows_division`
-/

------------------------------------------------------------
-- Splitting with Masks
------------------------------------------------------------

namespace LatticeSignature

namespace Rounding

namespace Buckets

open Outcome

variable {ε : Type}

/-
  The number of the bucket.  What would be one bucket too many
  is cut off by its four low bits, or cleared by a mask.
-/
def maskedIndex
    (b : Buckets)
    (a : Int) : Outcome ε Int := do
  let up ← Word.add32 a 127
  let coarse := Word.shiftRight up 7
  match b with
  | .sixteen =>
      let scaled ← Word.mul32 coarse 1025
      let rounded ← Word.add32 scaled 2097152
      return Word.and32 (Word.shiftRight rounded 22) 15
  | .fortyFour =>
      let scaled ← Word.mul32 coarse 11275
      let rounded ← Word.add32 scaled 8388608
      let high := Word.shiftRight rounded 24
      let below ← Word.sub32 43 high
      return Word.xor32 high
        (Word.and32 (Word.shiftRight below 31) high)

/-
  Split a residue.  The modulus is masked by the sign of the
  distance of the low part from half of it.
-/
def maskedSplit
    (b : Buckets)
    (a : Int) : Outcome ε Parts := do
  let high ← b.maskedIndex a
  let twice ← Word.mul32 high 2
  let start ← Word.mul32 twice b.halfWidth
  let low ← Word.sub32 a start
  let below ← Word.sub32 ((Field.q - 1) / 2) low
  let centred ←
    Word.sub32 low
      (Word.and32 (Word.shiftRight below 31) Field.q)
  return ⟨high, centred⟩

/- The number of a bucket is found alike. -/
theorem maskedIndex_eq_index
    (b : Buckets)
    (a : Int) :
    (b.maskedIndex a : Outcome ε Int) = b.index a := by
  refine bind_congr_of_eq_ok fun up hUp => ?_
  have hCoarse : Word.shiftRight up 7 = up / 128 :=
    Word.shiftRight_eq (Word.fits_of_check32 hUp) 7
  rw [hCoarse]
  cases b with
  | sixteen =>
      refine bind_congr_of_eq_ok fun scaled _ => ?_
      refine bind_congr_of_eq_ok fun rounded hRounded => ?_
      have hHigh :
          Word.shiftRight rounded 22 = rounded / 4194304 :=
        Word.shiftRight_eq (Word.fits_of_check32 hRounded) 22
      rw [hHigh, Word.and32_fifteen]
  | fortyFour =>
      refine bind_congr_of_eq_ok fun scaled _ => ?_
      refine bind_congr_of_eq_ok fun rounded hRounded => ?_
      have hFits := Word.fits_of_check32 hRounded
      have hHigh :
          Word.shiftRight rounded 24 = rounded / 16777216 :=
        Word.shiftRight_eq hFits 24
      have hHighFits : Word.Fits32 (rounded / 16777216) := by
        unfold Word.Fits32 at *
        omega
      have hBelowFits :
          Word.Fits32 (43 - rounded / 16777216) := by
        unfold Word.Fits32 at *
        omega
      have hSide :
          43 - rounded / 16777216 < 0
            ↔ rounded / 16777216 > 43 := by
        omega
      dsimp only
      rw [hHigh, Word.sub32, Word.check32_eq_ok hBelowFits,
        ok_bind, Word.and32_sign hBelowFits hHighFits,
        Word.xor32_masked hHighFits]
      simp only [hSide]

/-
  Masks and branches split every number in the same way, also
  one at which a word overflows.
-/
theorem maskedSplit_eq_split
    (b : Buckets)
    (a : Int) :
    (b.maskedSplit a : Outcome ε Parts) = b.split a := by
  unfold maskedSplit split
  rw [maskedIndex_eq_index]
  refine bind_congr_of_eq_ok fun high _ => ?_
  refine bind_congr_of_eq_ok fun twice _ => ?_
  refine bind_congr_of_eq_ok fun start _ => ?_
  refine bind_congr_of_eq_ok fun low _ => ?_
  refine bind_congr_of_eq_ok fun below hBelow => ?_
  rw [Word.and32_sign (Word.fits_of_check32 hBelow) (by decide)]

------------------------------------------------------------
-- Division with a Centred Remainder
------------------------------------------------------------

/- A remainder of a division by the width, centred at zero. -/
structure IsCentred
    (b : Buckets)
    (a r : Int) : Prop where
  lower : -b.halfWidth < r
  upper : r ≤ b.halfWidth
  divides : 2 * b.halfWidth ∣ a - r

/- Every number has one centred remainder. -/
theorem isCentred_iff
    {b : Buckets}
    {a r : Int} :
    b.IsCentred a r ↔ r = b.centred a := by
  have hCentred :
      -b.halfWidth < b.centred a
        ∧ b.centred a ≤ b.halfWidth
        ∧ 2 * b.halfWidth ∣ a - b.centred a := by
    unfold centred
    cases b <;>
    · simp only [halfWidth]
      split_ifs <;> omega
  constructor
  · rintro ⟨hLower, hUpper, hDivides⟩
    have hClose :
        2 * b.halfWidth ∣ r - b.centred a := by
      have hDifference := dvd_sub hCentred.2.2 hDivides
      rwa [sub_sub_sub_cancel_left] at hDifference
    -- Two centred remainders are closer than one width.
    have hZero :=
      Int.eq_zero_of_abs_lt_dvd hClose (abs_lt.2 (by omega))
    omega
  · rintro rfl
    exact ⟨hCentred.1, hCentred.2.1, hCentred.2.2⟩

/-
  The parts of a residue, found by shifts and masks without an
  overflow, are quotient and centred remainder of its division
  by the width of a bucket.  Where the quotient would be one
  bucket too many, the residue is in the first bucket and its
  low part is one less.
-/
theorem split_follows_division
    (b : Buckets)
    {a : Int}
    (hLower : 0 ≤ a)
    (hUpper : a < Field.q) :
    (b.maskedSplit a : Outcome ε Parts) = b.split a
      ∧ Returns (b.maskedSplit a : Outcome ε Parts) fun parts =>
        (∃ r,
          b.IsCentred a r
            ∧ (∀ r', b.IsCentred a r' → r' = r)
            ∧ parts =
              if a - r = Field.q - 1 then
                ⟨0, r - 1⟩
              else
                ⟨(a - r) / (2 * b.halfWidth), r⟩)
          ∧ 0 ≤ parts.high
          ∧ parts.high < (Field.q - 1) / (2 * b.halfWidth)
          ∧ -b.halfWidth ≤ parts.low
          ∧ parts.low ≤ b.halfWidth
          ∧ Field.Congruent
            (parts.high * 2 * b.halfWidth + parts.low) a := by
  refine ⟨b.maskedSplit_eq_split a, ?_⟩
  rw [maskedSplit_eq_split, split_eq_ok b hLower hUpper]
  refine returns_ok ⟨⟨b.centred a, isCentred_iff.2 rfl,
    fun _ => isCentred_iff.1, rfl⟩, ?_⟩
  rcases inBucket_standardParts b hLower hUpper with
    ⟨⟨hFirst, hLast, hHigh, hLow⟩, k, hPlace⟩
  have hCount :
      (Field.q - 1) / (2 * b.halfWidth) = b.count := by
    cases b <;> rfl
  rw [hCount]
  refine ⟨hFirst, hLast, by omega, hHigh, ?_⟩
  have hSame :
      (b.standardParts a).high * 2 * b.halfWidth
          + (b.standardParts a).low =
        a - Field.q * k := by
    unfold place at hPlace
    linarith
  rw [hSame]
  exact Int.sub_mul_emod_self_left a Field.q k

/- A residue of the first bucket at its lower end. -/
theorem split_follows_division_at_end :
    (0 : Int) ≤ 8285185
      ∧ (8285185 : Int) < Field.q
      ∧ fortyFour.IsCentred 8285185 (-95231)
      ∧ (fortyFour.maskedSplit 8285185 : Outcome Empty Parts) =
        .ok ⟨0, -95232⟩ := by
  have hLower : (0 : Int) ≤ 8285185 := by decide
  have hUpper : (8285185 : Int) < Field.q := by decide
  have hCentred : fortyFour.IsCentred 8285185 (-95231) :=
    ⟨by decide, by decide, by decide⟩
  rcases split_follows_division (ε := Empty) fortyFour hLower
      hUpper with
    ⟨_, parts, hOk, ⟨r, _, hUnique, hParts⟩, _⟩
  rw [← hUnique _ hCentred] at hParts
  refine ⟨hLower, hUpper, hCentred, ?_⟩
  rw [hOk, hParts]
  rfl

end Buckets

end Rounding

end LatticeSignature
