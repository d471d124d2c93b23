import LatticeSignature.Proofs.Scheme.SigningSafety
import LatticeSignature.Proofs.Scheme.Verification

/-
  Verification stays in its words and in the bounds of its
  strings, whatever bytes it is given.

  Main declarations:
    * `Guarded.difference`, `Guarded.check`
    * `Guarded.difference_runs`, `Guarded.check_runs`
    * `Scheme.verification_in_bounds`
-/

------------------------------------------------------------
-- Guarded Verification
------------------------------------------------------------

namespace LatticeSignature

namespace Guarded

open Outcome Access Scheme

variable {p : ParameterSet}

/- The difference `A * z - c * t1 * 2^13`, in `[0, q)`. -/
def difference
    (b : Backend)
    (key : PublicParts p)
    (signature : SignatureParts p) :
    Access SchemeError (PolyVec p.rows) := do
  let c ← transformedChallenge p signature.challenge
  let a ← matrix p b key.rho
  let z ← transform signature.z
  let az ← ofOutcome (a.apply z)
  let shifted ← shiftLeft key.t1 Rounding.droppedBits
  let t1 ← transform shifted
  let ct1 ← ofOutcome (t1.scale c)
  let product ← ofOutcome (az.sub ct1)
  let reduced ← ofOutcome product.reduce
  let w ← inverseTransform reduced
  liftNegative w

/- The buckets of the difference, corrected by the hints. -/
def restoreCommitment
    (b : Backend)
    (key : PublicParts p)
    (signature : SignatureParts p) :
    Access SchemeError (PolyVec p.rows) := do
  let w ← difference b key signature
  applyHints p.gamma2 signature.hints w

/- Whether a signature fits a message, a context and a key. -/
def check
    (p : ParameterSet)
    (b : Backend)
    (publicKey message context signature : Bytes) :
    Access SchemeError Bool := do
  let key ← readPublicKey p publicKey
  let parts ← readSignature p signature
  if ← exceedsNorm parts.z (responseBound p) then
    return false
  else
    let digest ←
      ofOutcome
        (messageDigest (keyDigest publicKey).toList context
          message)
    let w ← restoreCommitment b key parts
    let seed ← challengeSeed p digest w
    return parts.challenge == seed

------------------------------------------------------------
-- Runs of Verification
------------------------------------------------------------

/-
  The words of the difference stay in the ranges of the
  transforms, from the parts of the key and the signature on.
-/
theorem difference_runs
    (b : Backend)
    {key : PublicParts p}
    {signature : SignatureParts p}
    (hKey : key.InRange)
    (hz : signature.z.Within (Field.q - 1)) :
    Runs (difference b key signature)
      (Scheme.difference b key signature) := by
  refine (transformedChallenge_runs p
    signature.challenge).bind_ends
    (transformedChallenge_ends p signature.challenge) ?_
  rintro c ⟨challenge, _, _, hc⟩
  refine (matrix_runs p b key.rho).bind_ends
    (Sampling.matrix_yields p b key.rho) ?_
  intro a hMatrix
  refine (transform_runs hz).bind_returns
    (PolyVec.transform_returns hz) ?_
  intro z hTransformed
  refine (runs_ofOutcome _).bind_returns
    (Matrix.apply_returns hMatrix hTransformed p.columns_le) ?_
  intro az hProduct
  refine (shiftLeft_runs hKey).bind_returns
    (PolyVec.shiftLeft_returns hKey) ?_
  rintro shifted ⟨hShifted, _⟩
  refine (transform_runs hShifted).bind_returns
    (PolyVec.transform_returns hShifted) ?_
  intro t1 ht1
  refine (runs_ofOutcome _).bind_returns
    (PolyVec.scale_returns ht1 hc) ?_
  intro ct1 hScaled
  refine (runs_ofOutcome _).bind_returns
    (PolyVec.sub_returns_isProduct hProduct hScaled
      (by decide)) ?_
  intro product hDifference
  refine reduced_runs hDifference (by decide) ?_
  exact fun w hRange =>
    liftNegative_runs (hRange.mono (by decide))

/- The restored commitment consists of bucket numbers. -/
theorem restoreCommitment_buckets
    (b : Backend)
    {key : PublicParts p}
    {signature : SignatureParts p}
    (hKey : key.InRange)
    (hz : signature.z.Within (Field.q - 1)) :
    Ends (VerifierSpent b key signature)
      (Scheme.restoreCommitment b key signature) fun w =>
        ∀ (i : Fin p.rows) (k : Fin degree),
          0 ≤ w[i][k] ∧ w[i][k] < p.buckets.count := by
  refine (restoreCommitment_ends b hKey hz).mono ?_
  rintro w ⟨c, a, _, _, rfl⟩ i k
  simp only [restoredCommitment, getElem_index,
    Vector.getElem_ofFn]
  exact p.buckets.useHint_range _ _

/- The buckets of the difference are found in bounds. -/
theorem restoreCommitment_runs
    (b : Backend)
    {key : PublicParts p}
    {signature : SignatureParts p}
    (hKey : key.InRange)
    (hz : signature.z.Within (Field.q - 1)) :
    Runs (restoreCommitment b key signature)
      (Scheme.restoreCommitment b key signature) := by
  refine (difference_runs b hKey hz).bind_ends
    (difference_ends b hKey hz) ?_
  rintro w ⟨_, _, _, _, hCanonical, _⟩
  exact applyHints_runs p.buckets signature.hints hCanonical

theorem check_runs
    (p : ParameterSet)
    (b : Backend)
    (publicKey message context signature : Bytes) :
    Runs (check p b publicKey message context signature)
      (Scheme.check p b publicKey message context
        signature) := by
  refine (readPublicKey_runs p publicKey).bind_ends
    (Encoding.unpackPublicKey_decides p publicKey) ?_
  rintro key ⟨hKey, _⟩
  refine (readSignature_runs p signature).bind_ends
    (Encoding.unpackSignature_decides p signature) ?_
  rintro parts ⟨hParts, _⟩
  have hz := within_response hParts.z
  refine (exceedsNorm_runs (hz.mono (by decide)) _).ok_bind ?_
  split
  · exact runs_pure _
  refine (runs_ofOutcome _).bind ?_
  intro digest _
  refine (restoreCommitment_runs b hKey hz).bind_ends
    (restoreCommitment_buckets b hKey hz) ?_
  intro w hw
  exact (challengeSeed_runs digest hw).bind
    fun _ _ => runs_pure _

end Guarded

------------------------------------------------------------
-- Safety
------------------------------------------------------------

namespace Scheme

open Outcome Access

/- A check accepts, refuses or runs out of candidates. -/
theorem check_ne_overflow
    (p : ParameterSet)
    (b : Backend)
    (publicKey message context signature : Bytes) :
    check p b publicKey message context signature ≠
      .error .overflow := by
  rcases check_ends p b publicKey message context signature with
    ⟨accepted, hOk, _⟩ | ⟨stop, hStop, _, hReason⟩
  · rw [hOk]
    simp
  · rw [hStop]
    rcases hReason with ⟨cause, rfl⟩ | ⟨rfl, _⟩ <;> simp

/- Verification overflows where its check does. -/
theorem check_of_verify_overflow
    {p : ParameterSet}
    {b : Backend}
    {publicKey message context signature : Bytes}
    (h :
      (verify p b publicKey message context signature).outcome =
        .error .overflow) :
    check p b publicKey message context signature =
      .error .overflow := by
  dsimp only [verify] at h
  split at h
  · cases h
  · assumption
  · cases h
  · cases h
  · cases h

/-
  Whatever bytes it is given, verification keeps its words in
  their sizes, its indices in their bounds and its conditions
  satisfied.  The residues whose buckets it restores are least
  representatives.
-/
theorem verification_in_bounds
    (p : ParameterSet)
    (b : Backend)
    (publicKey message context signature : Bytes) :
    Runs
        (Guarded.check p b publicKey message context signature)
        (check p b publicKey message context signature)
      ∧ check p b publicKey message context signature ≠
        .error .overflow
      ∧ (verify p b publicKey message context
          signature).outcome ≠ .error .overflow
      ∧ ∀ (key : PublicParts p) (parts : SignatureParts p)
          (w : PolyVec p.rows),
        Encoding.unpackPublicKey p publicKey = .ok key →
        Encoding.unpackSignature p signature = .ok parts →
        difference b key parts = .ok w →
        w.Canonical := by
  have hCheck :=
    check_ne_overflow p b publicKey message context signature
  refine ⟨Guarded.check_runs p b publicKey message context
    signature, hCheck, ?_, ?_⟩
  · exact fun hOverflow =>
      hCheck (check_of_verify_overflow hOverflow)
  · intro key parts w hKey hParts hDifference
    have hKeyRange :=
      (Encoding.unpackPublicKey_eq_ok_iff.1 hKey).1
    have hPartsRange :=
      (Encoding.unpackSignature_eq_ok_iff.1 hParts).1
    rcases (difference_ends b hKeyRange
        (within_response hPartsRange.z)).of_eq_ok
          hDifference with
      ⟨_, _, _, _, hCanonical, _⟩
    exact hCanonical

end Scheme

end LatticeSignature
