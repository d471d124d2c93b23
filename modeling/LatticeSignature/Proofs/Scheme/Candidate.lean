import LatticeSignature.Proofs.Encoding.Keys
import LatticeSignature.Proofs.Encoding.Signature
import LatticeSignature.Proofs.Rounding.Vectors
import LatticeSignature.Proofs.Scheme.Products
import Mathlib.Data.ZMod.ValMinAbs

/-
  The candidate of a signing attempt, by the equations of the
  scheme: all products are those of the ring, and norms are
  norms of centred residues.

  Main declarations:
    * `Candidate`
    * `Candidate.commitment`, `Candidate.response`
    * `Candidate.residual`, `Candidate.correction`
    * `Candidate.hints`, `Candidate.signature`
    * `Candidate.Passes`
    * `Candidate.IsAttempt`, `Candidate.IsAttempt.unique`
    * `Candidate.IsAttempt.length_seed`
    * `Candidate.InRange`
-/

------------------------------------------------------------
-- Centred Residues
------------------------------------------------------------

namespace LatticeSignature

/- A small number is its own centred residue. -/
theorem Residue.valMinAbs_intCast
    {a : Int}
    (h : Word.Within 4190208 a) :
    (a : Residue).valMinAbs = a := by
  rw [ZMod.valMinAbs_spec]
  refine ⟨rfl, ?_⟩
  rw [Set.mem_Ioc]
  unfold Word.Within at h
  push_cast
  omega

------------------------------------------------------------
-- Candidates
------------------------------------------------------------

/-
  What an attempt works with: a secret key, its matrix, a mask
  and the challenge of a seed.
-/
structure Candidate (p : ParameterSet) where
  key : SecretParts p
  matrix : Matrix p.rows p.columns
  mask : PolyVec p.columns
  seed : Bytes
  challenge : Poly

namespace Candidate

open Negacyclic

variable {p : ParameterSet}
variable {n : Nat}

/- The products of a vector and the challenge. -/
def scaled
    (x : Candidate p)
    (v : PolyVec n) : Fin n → Element Residue :=
  fun i => product x.challenge.element (v.elements i)

/- The commitment `w = A * y`. -/
def commitment
    (x : Candidate p) : Fin p.rows → Element Residue :=
  Negacyclic.apply x.matrix.elements x.mask.elements

/- The buckets of the commitment. -/
def high
    (x : Candidate p) : PolyVec p.rows :=
  Vector.ofFn fun i => Vector.ofFn fun k =>
    p.buckets.highBits (x.commitment i k)

/- The response `z = y + c * s1`. -/
def response
    (x : Candidate p) : Fin p.columns → Element Residue :=
  x.mask.elements + x.scaled x.key.s1

/- The difference `w - c * s2`. -/
def residual
    (x : Candidate p) : Fin p.rows → Element Residue :=
  x.commitment - x.scaled x.key.s2

/- The correction `c * t0`. -/
def correction
    (x : Candidate p) : Fin p.rows → Element Residue :=
  x.scaled x.key.t0

/- The hints for `-c * t0` at `w - c * s2 + c * t0`. -/
def hints
    (x : Candidate p) : Hints p.rows :=
  Vector.ofFn fun i => Vector.ofFn fun k =>
    p.buckets.makeHint (-x.correction i k)
      (x.residual i k + x.correction i k)

/- The signature of the candidate, with centred responses. -/
def signature
    (x : Candidate p) : SignatureParts p where
  challenge := x.seed
  z := Vector.ofFn fun i => Vector.ofFn fun k =>
    (x.response i k).valMinAbs
  hints := x.hints

/- The checks that a candidate has to pass. -/
structure Passes
    (x : Candidate p) : Prop where
  response :
    ∀ (i : Fin p.columns) (k : Fin degree),
      |(x.response i k).valMinAbs| < p.gamma1 - p.beta
  residual :
    ∀ (i : Fin p.rows) (k : Fin degree),
      |p.buckets.lowBits (x.residual i k)| < p.gamma2 - p.beta
  correction :
    ∀ (i : Fin p.rows) (k : Fin degree),
      |(x.correction i k).valMinAbs| < p.gamma2
  hints : x.hints.weight ≤ p.omega

/-
  The candidate of the attempt numbered `n`: its mask is that
  of the nonces from `n` times the number of columns on, modulo
  `2^16`, and its challenge is that of its commitment.
-/
structure IsAttempt
    (x : Candidate p)
    (b : Backend)
    (digest maskSeed : Bytes)
    (n : Nat) : Prop where
  mask :
    ∀ i : Fin p.columns,
      Sampling.seededMask p b.secretStream maskSeed
          (UInt16.ofNat (p.columns * n + i.val)) =
        .ok x.mask[i]
  seed :
    x.seed =
      Keccak.shake256
        (digest ++ Encoding.encodeCommitment p x.high)
        p.challengeBytes
  challenge :
    Sampling.challenge p x.seed =
      (.ok x.challenge : Outcome SchemeError Poly)

/- The seed of a candidate has the size of its kind. -/
theorem IsAttempt.length_seed
    {x : Candidate p}
    {b : Backend}
    {digest maskSeed : Bytes}
    {n : Nat}
    (h : x.IsAttempt b digest maskSeed n) :
    x.seed.length = p.challengeBytes := by
  rw [h.seed]
  exact Keccak.length_shake256 _ _

/- An attempt of a key has one candidate only. -/
theorem IsAttempt.unique
    {x x' : Candidate p}
    {b : Backend}
    {digest maskSeed : Bytes}
    {n : Nat}
    (h : x.IsAttempt b digest maskSeed n)
    (h' : x'.IsAttempt b digest maskSeed n)
    (hKey : x.key = x'.key)
    (hMatrix : x.matrix = x'.matrix) :
    x = x' := by
  rcases x with ⟨key, matrix, mask, seed, challenge⟩
  rcases x' with ⟨key', matrix', mask', seed', challenge'⟩
  cases hKey
  cases hMatrix
  have hMask : mask = mask' := by
    apply Vector.ext
    intro i hi
    have hEntry := (h.mask ⟨i, hi⟩).symm.trans (h'.mask ⟨i, hi⟩)
    injection hEntry
  cases hMask
  -- One mask has one commitment, which has one seed.
  have hSeed : seed = seed' := h.seed.trans h'.seed.symm
  cases hSeed
  have hChallenge := h.challenge.symm.trans h'.challenge
  injection hChallenge with hChallenge
  cases hChallenge
  rfl

------------------------------------------------------------
-- Exact Products
------------------------------------------------------------

/- All parts of the candidate are in their ranges. -/
structure InRange
    (x : Candidate p) : Prop where
  key : x.key.InRange
  matrix : x.matrix.Canonical
  mask :
    ∀ i : Fin p.columns,
      Encoding.HalfOpen (-p.gamma1) p.gamma1 x.mask[i]
  challenge : Sampling.IsChallenge p.tau x.challenge

/- The products of a vector and the challenge, over integers. -/
def scaledIntegers
    (x : Candidate p)
    (v : PolyVec n) : Fin n → Element Int :=
  fun i =>
    product (Entries.toFun x.challenge) (v.integers i)

theorem scaled_eq_cast
    (x : Candidate p)
    (v : PolyVec n)
    (i : Fin n)
    (k : Fin degree) :
    x.scaled v i k = (x.scaledIntegers v i k : Residue) :=
  congrFun (castElement_product _ _).symm k

theorem scaledIntegers_within
    {x : Candidate p}
    {v : PolyVec n}
    {bound : Int}
    (h : x.InRange)
    (hv : v.Within bound)
    (i : Fin n)
    (k : Fin degree) :
    Word.Within (p.tau * bound) (x.scaledIntegers v i k) :=
  Scheme.product_within h.challenge (hv i) k

theorem within_t0
    {key : SecretParts p}
    (h : key.InRange) :
    key.t0.Within 4096 := by
  intro i k
  have hk := h.t0 i k
  unfold Word.Within
  omega

/- Centred responses are the sums of the integers. -/
theorem valMinAbs_response
    {x : Candidate p}
    (h : x.InRange)
    (i : Fin p.columns)
    (k : Fin degree) :
    (x.response i k).valMinAbs =
      x.mask[i][k] + x.scaledIntegers x.key.s1 i k := by
  have hScaled := scaledIntegers_within h h.key.s1 i k
  have hMask := h.mask i k
  have hBeta := p.beta_le
  have hGamma := p.gamma1_le
  rw [p.tau_mul_eta] at hScaled
  have hSum :
      x.response i k =
        ((x.mask[i][k] + x.scaledIntegers x.key.s1 i k : Int)
          : Residue) := by
    rw [Int.cast_add, ← scaled_eq_cast]
    rfl
  rw [hSum]
  apply Residue.valMinAbs_intCast
  unfold Word.Within at *
  omega

/- Centred corrections are the products of the integers. -/
theorem valMinAbs_correction
    {x : Candidate p}
    (h : x.InRange)
    (i : Fin p.rows)
    (k : Fin degree) :
    (x.correction i k).valMinAbs =
      x.scaledIntegers x.key.t0 i k := by
  have hScaled := scaledIntegers_within h (within_t0 h.key) i k
  have hTau := p.tau_le
  rw [correction, scaled_eq_cast]
  apply Residue.valMinAbs_intCast
  unfold Word.Within at *
  omega

------------------------------------------------------------
-- Residuals
------------------------------------------------------------

theorem residual_eq
    (x : Candidate p)
    (i : Fin p.rows)
    (k : Fin degree) :
    x.residual i k =
      x.commitment i k
        - (x.scaledIntegers x.key.s2 i k : Residue) := by
  rw [← scaled_eq_cast]
  rfl

/-
  The low part of a residual is small when the low part of the
  commitment, less the integer product, is.
-/
theorem abs_lowBits_residual_lt_iff
    {x : Candidate p}
    (h : x.InRange)
    (i : Fin p.rows)
    (k : Fin degree) :
    |p.buckets.lowBits (x.residual i k)| < p.gamma2 - p.beta
      ↔ |p.buckets.lowBits (x.commitment i k)
          - x.scaledIntegers x.key.s2 i k|
        < p.gamma2 - p.beta := by
  have hScaled := scaledIntegers_within h h.key.s2 i k
  rw [p.tau_mul_eta] at hScaled
  rw [residual_eq, Word.abs_lt_iff_within,
    Word.abs_lt_iff_within]
  exact Rounding.Buckets.lowBits_sub_within_iff hScaled

/- A small residual is in the bucket of its commitment. -/
theorem bits_residual
    {x : Candidate p}
    (h : x.InRange)
    {i : Fin p.rows}
    {k : Fin degree}
    (hSmall :
      |p.buckets.lowBits (x.residual i k)|
        < p.gamma2 - p.beta) :
    p.buckets.highBits (x.residual i k) =
        p.buckets.highBits (x.commitment i k)
      ∧ p.buckets.lowBits (x.residual i k) =
        p.buckets.lowBits (x.commitment i k)
          - x.scaledIntegers x.key.s2 i k := by
  rw [abs_lowBits_residual_lt_iff h, Word.abs_lt_iff_within]
    at hSmall
  rw [residual_eq]
  exact
    Rounding.Buckets.bits_sub_of_within
      (Int.natCast_nonneg p.beta) hSmall

/- Residual and correction together stay near their bucket. -/
theorem near_bucket
    {x : Candidate p}
    (h : x.InRange)
    {i : Fin p.rows}
    {k : Fin degree}
    (hResidual :
      |p.buckets.lowBits (x.residual i k)|
        < p.gamma2 - p.beta)
    (hCorrection :
      |(x.correction i k).valMinAbs| < p.gamma2) :
    -(2 * p.buckets.halfWidth)
        < p.buckets.lowBits (x.residual i k)
          + x.scaledIntegers x.key.t0 i k
      ∧ p.buckets.lowBits (x.residual i k)
          + x.scaledIntegers x.key.t0 i k
        < 2 * p.buckets.halfWidth := by
  rw [valMinAbs_correction h] at hCorrection
  rw [Word.abs_lt_iff_within] at hResidual hCorrection
  have hGamma : p.gamma2 = p.buckets.halfWidth := rfl
  have hBeta := Int.natCast_nonneg p.beta
  unfold Word.Within at *
  omega

theorem getElem_hints
    (x : Candidate p)
    (i : Fin p.rows)
    (k : Fin degree) :
    x.hints[i][k] =
      p.buckets.makeHint (-x.correction i k)
        (x.residual i k + x.correction i k) := by
  simp [hints]

/- The hint of a candidate is decided by integers. -/
theorem getElem_hints_eq_leaves
    {x : Candidate p}
    (h : x.InRange)
    {i : Fin p.rows}
    {k : Fin degree}
    (hResidual :
      |p.buckets.lowBits (x.residual i k)|
        < p.gamma2 - p.beta)
    (hCorrection :
      |(x.correction i k).valMinAbs| < p.gamma2) :
    x.hints[i][k] =
      p.buckets.leaves
        (p.buckets.lowBits (x.commitment i k)
          - x.scaledIntegers x.key.s2 i k
          + x.scaledIntegers x.key.t0 i k)
        (p.buckets.highBits (x.commitment i k)) := by
  have hNear := near_bucket h hResidual hCorrection
  rcases bits_residual h hResidual with ⟨hHigh, hLow⟩
  rw [getElem_hints, ← hHigh, ← hLow,
    Rounding.Buckets.leaves_eq_makeHint hNear, correction,
    scaled_eq_cast]

/- The hints of a candidate lead back to its commitment. -/
theorem useHint_hints
    {x : Candidate p}
    (h : x.InRange)
    (hPasses : x.Passes)
    (i : Fin p.rows)
    (k : Fin degree) :
    p.buckets.useHint x.hints[i][k]
        (x.residual i k + x.correction i k) =
      p.buckets.highBits (x.commitment i k) := by
  have hResidual := hPasses.residual i k
  have hNear :=
    near_bucket h hResidual (hPasses.correction i k)
  rw [getElem_hints, ← (bits_residual h hResidual).1,
    correction, scaled_eq_cast]
  exact Rounding.Buckets.useHint_makeHint hNear

theorem getElem_signature_z
    (x : Candidate p)
    (i : Fin p.columns)
    (k : Fin degree) :
    x.signature.z[i][k] = (x.response i k).valMinAbs := by
  simp [signature]

theorem getElem_high
    (x : Candidate p)
    (i : Fin p.rows)
    (k : Fin degree) :
    x.high[i][k] = p.buckets.highBits (x.commitment i k) := by
  simp [high]

/- A candidate that passes can be packed. -/
theorem signature_inRange
    {x : Candidate p}
    (hSeed : x.seed.length = p.challengeBytes)
    (hPasses : x.Passes) :
    x.signature.InRange := by
  have hBeta := Int.natCast_nonneg p.beta
  refine ⟨hSeed, ?_, hPasses.hints⟩
  intro i k
  have hShort := abs_lt.1 (hPasses.response i k)
  rw [getElem_signature_z]
  omega

end Candidate

end LatticeSignature
