import LatticeSignature.Proofs.ParameterSet
import LatticeSignature.Proofs.Rounding.Vectors
import LatticeSignature.Scheme.Signing

/-
  Signing takes a small vector away from low parts in place,
  and checks the result.  The check decides the same as one of
  the low parts of the difference, and when it passes, the
  changed parts are those of the difference.

  Main declarations:
    * `Rounding.Buckets.split_difference_returns`
    * `PolyVec.differenceModulo`
    * `PolyVec.splitBuckets_difference_returns`
    * `Scheme.changedParts`, `Scheme.partsOfDifference`
    * `Scheme.changedParts_eq_partsOfDifference`
    * `Scheme.low_part_check`
-/

------------------------------------------------------------
-- Small Differences of Residues
------------------------------------------------------------

namespace LatticeSignature

open Outcome

namespace Rounding

namespace Buckets

variable {ε : Type}

/-
  A number that is taken away from a residue is taken away
  from its low part, as long as the low part stays away from
  the ends of its bucket.
-/
theorem split_difference_returns
    (b : Buckets)
    {w e bound : Int}
    (hLower : 0 ≤ w)
    (hUpper : w < Field.q)
    (he : |e| ≤ bound) :
    Returns (b.split w : Outcome ε Parts) fun parts =>
      Returns (b.split ((w - e) % Field.q) : Outcome ε Parts)
        fun moved =>
          (b.halfWidth - bound ≤ |parts.low - e|
              ↔ b.halfWidth - bound ≤ |moved.low|)
            ∧ (|parts.low - e| < b.halfWidth - bound →
              moved = ⟨parts.high, parts.low - e⟩) := by
  have hSplit := split_emod_eq_ok (ε := ε) b w
  rw [Int.emod_eq_of_lt hLower hUpper] at hSplit
  have hBound : 0 ≤ bound := (abs_nonneg e).trans he
  refine ⟨_, hSplit, _, split_emod_eq_ok b (w - e), ?_, ?_⟩
  · rw [← not_lt, ← not_lt, Word.abs_lt_iff_within,
      Word.abs_lt_iff_within, Int.cast_sub,
      lowBits_sub_within_iff (abs_le.1 he)]
  · intro hSmall
    rw [Word.abs_lt_iff_within] at hSmall
    rcases bits_sub_of_within hBound hSmall with ⟨hHigh, hLow⟩
    rw [Int.cast_sub, hHigh, hLow]

end Buckets

end Rounding

------------------------------------------------------------
-- Checks of Vectors
------------------------------------------------------------

namespace PolyVec

variable {ε : Type}
variable {n : Nat}

/- A vector is split where each coefficient is. -/
theorem splitBuckets_entries
    {v : PolyVec n}
    (b : Rounding.Buckets)
    (h : v.Canonical) :
    Returns (v.splitBuckets b : Outcome ε (SplitVec n))
      fun parts =>
        ∀ (i : Fin n) (k : Fin degree),
          (b.split v[i][k] : Outcome ε Rounding.Parts) =
              .ok ⟨parts.high[i][k], parts.low[i][k]⟩
            ∧ Word.Within b.halfWidth parts.low[i][k] := by
  refine splitWith_returns
    (P := fun i k parts =>
      (b.split v[i][k] : Outcome ε Rounding.Parts) = .ok parts
        ∧ Word.Within b.halfWidth parts.low) fun i k => ?_
  have hSplit := b.split_eq_ok (ε := ε) (h i k).1 (h i k).2
  have hIn :=
    (b.inBucket_standardParts (h i k).1 (h i k).2).1
  exact ⟨_, hSplit, hSplit, hIn.within⟩

/- Norms are decided by magnitudes of coefficients. -/
theorem exceedsNorm_congr
    {v w : PolyVec n}
    {bound : Int}
    (hv : v.Within 2147483647)
    (hw : w.Within 2147483647)
    (hBound : bound ≤ (Field.q - 1) / 8)
    (hSame :
      ∀ (i : Fin n) (k : Fin degree),
        bound ≤ |v[i][k]| ↔ bound ≤ |w[i][k]|) :
    v.exceedsNorm bound = w.exceedsNorm bound := by
  rw [Bool.eq_iff_iff, ← not_iff_not, Bool.not_eq_true,
    Bool.not_eq_true, exceedsNorm_eq_false_iff hv hBound,
    exceedsNorm_eq_false_iff hw hBound]
  simp only [← not_le, hSame]

/- The least representatives of a difference. -/
def differenceModulo
    (w e : PolyVec n) : PolyVec n :=
  Vector.ofFn fun i => Vector.ofFn fun k =>
    (w[i][k] - e[i][k]) % Field.q

theorem getElem_differenceModulo
    (w e : PolyVec n)
    (i : Fin n)
    (k : Fin degree) :
    (differenceModulo w e)[i][k] =
      (w[i][k] - e[i][k]) % Field.q := by
  simp [differenceModulo]

theorem canonical_differenceModulo
    (w e : PolyVec n) :
    Canonical (differenceModulo w e) := by
  intro i k
  rw [getElem_differenceModulo]
  exact Rounding.Buckets.emod_range _

/-
  A small vector is taken away from low parts as its numbers
  are taken away from residues.
-/
theorem splitBuckets_difference_returns
    {w e : PolyVec n}
    {bound : Int}
    (b : Rounding.Buckets)
    (hw : w.Canonical)
    (he : e.Within bound) :
    Returns (w.splitBuckets b : Outcome ε (SplitVec n))
      fun parts =>
        Returns
          ((differenceModulo w e).splitBuckets b
            : Outcome ε (SplitVec n))
          fun moved =>
            parts.low.Within b.halfWidth
              ∧ moved.low.Within b.halfWidth
              ∧ ∀ (i : Fin n) (k : Fin degree),
                (b.halfWidth - bound ≤ |parts.low[i][k] - e[i][k]|
                    ↔ b.halfWidth - bound ≤ |moved.low[i][k]|)
                  ∧ (|parts.low[i][k] - e[i][k]|
                        < b.halfWidth - bound →
                    moved.high[i][k] = parts.high[i][k]
                      ∧ moved.low[i][k] =
                        parts.low[i][k] - e[i][k]) := by
  refine (splitBuckets_entries b hw).mono ?_
  intro parts hParts
  refine (splitBuckets_entries b
    (canonical_differenceModulo w e)).mono ?_
  intro moved hMoved
  refine ⟨fun i k => (hParts i k).2,
    fun i k => (hMoved i k).2, fun i k => ?_⟩
  have hEntry := (hMoved i k).1
  rw [getElem_differenceModulo] at hEntry
  rcases
    ((b.split_difference_returns (hw i k).1 (hw i k).2
      (abs_le.2 (he i k))).of_eq_ok
        (hParts i k).1).of_eq_ok hEntry with
    ⟨hCheck, hSame⟩
  refine ⟨hCheck, fun hSmall => ?_⟩
  injection hSame hSmall with hHigh hLow
  exact ⟨hHigh, hLow⟩

end PolyVec

namespace Scheme

/-
  Split a vector, take another one away from its low parts and
  keep the parts, unless a low part is too large.
-/
def changedParts
    (p : ParameterSet)
    (w e : PolyVec p.rows) :
    Outcome SchemeError (Option (SplitVec p.rows)) := do
  let parts ← w.splitBuckets p.buckets
  let low ← (← parts.low.sub e).reduce
  if low.exceedsNorm (lowPartBound p) then
    return none
  else
    return some ⟨parts.high, low⟩

/-
  Split a difference of vectors and keep the parts, unless a
  low part is too large.
-/
def partsOfDifference
    (p : ParameterSet)
    (w e : PolyVec p.rows) :
    Outcome SchemeError (Option (SplitVec p.rows)) := do
  let parts ←
    (PolyVec.differenceModulo w e).splitBuckets p.buckets
  if parts.low.exceedsNorm (lowPartBound p) then
    return none
  else
    return some parts

/- Changes of low parts are changes of the vector. -/
theorem changedParts_eq_partsOfDifference
    {p : ParameterSet}
    {w e : PolyVec p.rows}
    (hw : w.Canonical)
    (he : e.Within p.beta) :
    changedParts p w e = partsOfDifference p w e := by
  have hGamma := p.gamma2_le
  have hBeta := p.beta_le
  rcases PolyVec.splitBuckets_difference_returns
      (ε := SchemeError) p.buckets hw he with
    ⟨parts, hParts, moved, hMoved, hLow, hMovedLow, hLaw⟩
  change parts.low.Within p.gamma2 at hLow
  change moved.low.Within p.gamma2 at hMovedLow
  rcases PolyVec.sub_returns (ε := SchemeError) hLow he
      (by omega) with
    ⟨low, hSub, hDifference, hRange, _⟩
  have hEntry :
      ∀ (i : Fin p.rows) (k : Fin degree),
        low[i][k] = parts.low[i][k] - e[i][k] :=
    fun i k => congrFun (congrFun hDifference i) k
  simp only [← hEntry] at hLaw
  have hBound : lowPartBound p ≤ (Field.q - 1) / 8 := by
    unfold lowPartBound Field.q
    omega
  have hWords : low.Within 2147483647 := hRange.mono (by omega)
  have hCheck :
      low.exceedsNorm (lowPartBound p) =
        moved.low.exceedsNorm (lowPartBound p) :=
    PolyVec.exceedsNorm_congr hWords
      (hMovedLow.mono (by omega)) hBound fun i k => (hLaw i k).1
  rw [changedParts, hParts, ok_bind, hSub, ok_bind,
    PolyVec.reduce_eq_self (hRange.mono (by omega)), ok_bind,
    partsOfDifference, hMoved, ok_bind, ← hCheck]
  by_cases hLarge : low.exceedsNorm (lowPartBound p)
  · rw [if_pos hLarge, if_pos hLarge]
  · rw [if_neg hLarge, if_neg hLarge]
    rw [Bool.not_eq_true,
      PolyVec.exceedsNorm_eq_false_iff hWords hBound] at hLarge
    have hSame := fun i k => (hLaw i k).2 (hLarge i k)
    have hHigh : moved.high = parts.high :=
      Entries.ext_rows fun i k => (hSame i k).1
    have hLowSame : moved.low = low :=
      Entries.ext_rows fun i k => (hSame i k).2
    rw [← hHigh, ← hLowSame]

------------------------------------------------------------
-- Low Part Check
------------------------------------------------------------

/-
  The check of changed low parts is the check of the low parts
  of the difference, for one coefficient and for a vector.
-/
theorem low_part_check
    (p : ParameterSet) :
    (∀ w e : Int,
      0 ≤ w → w < Field.q → |e| ≤ p.beta →
        Returns
          (p.buckets.split w
            : Outcome SchemeError Rounding.Parts)
          fun parts =>
            Returns
              (p.buckets.split ((w - e) % Field.q)
                : Outcome SchemeError Rounding.Parts)
              fun moved =>
                (p.gamma2 - p.beta ≤ |parts.low - e|
                    ↔ p.gamma2 - p.beta ≤ |moved.low|)
                  ∧ (|parts.low - e| < p.gamma2 - p.beta →
                    moved = ⟨parts.high, parts.low - e⟩))
      ∧ ∀ w e : PolyVec p.rows,
        w.Canonical → e.Within p.beta →
          changedParts p w e = partsOfDifference p w e := by
  constructor
  · intro w e hLower hUpper he
    exact
      p.buckets.split_difference_returns hLower hUpper he
  · intro w e hw he
    exact changedParts_eq_partsOfDifference hw he

/-
  A difference can lead from the first bucket to the last one:
  there the changed low part is 156 above its bound, and the
  low part of the difference is one above it.
-/
theorem low_part_check_at_wrap :
    |(78 : Int)| ≤ ParameterSet.mldsa44.beta
      ∧ (ParameterSet.mldsa44.buckets.split 8285185
          : Outcome SchemeError Rounding.Parts) =
        .ok ⟨0, -95232⟩
      ∧ (ParameterSet.mldsa44.buckets.split 8285107
          : Outcome SchemeError Rounding.Parts) =
        .ok ⟨43, 95155⟩
      ∧ (ParameterSet.mldsa44.gamma2 - ParameterSet.mldsa44.beta
            ≤ |(-95232 : Int) - 78|
          ↔ ParameterSet.mldsa44.gamma2
              - ParameterSet.mldsa44.beta
            ≤ |(95155 : Int)|)
      ∧ changedParts .mldsa44 PolyVec.zero PolyVec.zero =
        partsOfDifference .mldsa44 PolyVec.zero
          PolyVec.zero := by
  have hBeta : |(78 : Int)| ≤ ParameterSet.mldsa44.beta := by
    decide
  have hSplit :
      (ParameterSet.mldsa44.buckets.split 8285185
          : Outcome SchemeError Rounding.Parts) =
        .ok ⟨0, -95232⟩ := by
    decide
  have hMoved :
      (ParameterSet.mldsa44.buckets.split 8285107
          : Outcome SchemeError Rounding.Parts) =
        .ok ⟨43, 95155⟩ := by
    decide
  have hZero :
      ∀ (i : Fin ParameterSet.mldsa44.rows) (k : Fin degree),
        (PolyVec.zero : PolyVec ParameterSet.mldsa44.rows)[i][k]
          = 0 := by
    intro i k
    simp [PolyVec.zero, Poly.zero]
  rcases low_part_check .mldsa44 with ⟨hCoefficient, hVector⟩
  have hLaw :=
    ((hCoefficient 8285185 78 (by decide) (by decide)
      hBeta).of_eq_ok hSplit).of_eq_ok hMoved
  refine ⟨hBeta, hSplit, hMoved, hLaw.1, hVector _ _ ?_ ?_⟩
  · intro i k
    rw [hZero i k]
    decide
  · intro i k
    rw [hZero i k]
    decide

end Scheme

end LatticeSignature
