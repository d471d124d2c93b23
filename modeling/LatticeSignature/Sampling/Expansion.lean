import LatticeSignature.Ring.PolyVec
import LatticeSignature.Sampling.Coefficients
import LatticeSignature.Stream.Backend

/-
  The public matrix, the secret vectors and the mask vectors
  that seeds expand to.  Every polynomial has a nonce of its
  own.

  Main declarations:
    * `Seed`
    * `Sampling.matrixNonce`, `Sampling.matrix`
    * `Sampling.Secrets`, `Sampling.secrets`
    * `Sampling.maskNonce`, `Sampling.masks`
-/

------------------------------------------------------------
-- Matrices and Vectors
------------------------------------------------------------

namespace LatticeSignature

/- A seed of 32 bytes. -/
abbrev Seed :=
  Vector UInt8 32

namespace Sampling

/- The nonce of row `i` and column `j` of the matrix. -/
def matrixNonce
    (i j : Nat) : UInt16 :=
  UInt16.ofNat (256 * i + j)

/- The public matrix of a seed, transformed. -/
def matrix
    (p : ParameterSet)
    (backend : Backend)
    (rho : Seed) :
    Outcome SchemeError (Matrix p.rows p.columns) :=
  Outcome.tabulate fun i =>
    Outcome.tabulate fun j =>
      seededUniform
        backend.matrixStream
        rho.toList
        (matrixNonce i.val j.val)

/- The two secret vectors of a key. -/
structure Secrets (p : ParameterSet) where
  s1 : PolyVec p.columns
  s2 : PolyVec p.rows

/-
  The secret vectors of a seed.  The nonces count through the
  first vector and on through the second one.
-/
def secrets
    (p : ParameterSet)
    (kind : StreamKind)
    (seed : Bytes) : Outcome SchemeError (Secrets p) := do
  let s1 ← Outcome.tabulate fun i =>
    seededSmall p.eta kind seed (UInt16.ofNat i.val)
  let s2 ← Outcome.tabulate fun i =>
    seededSmall p.eta kind seed
      (UInt16.ofNat (p.columns + i.val))
  return ⟨s1, s2⟩

/-
  The nonce of the mask polynomial `i` in the attempt numbered
  `kappa`, modulo `2^16`.
-/
def maskNonce
    (p : ParameterSet)
    (kappa : UInt16)
    (i : Nat) : UInt16 :=
  UInt16.ofNat p.columns * kappa + UInt16.ofNat i

/- The mask vector of an attempt. -/
def masks
    (p : ParameterSet)
    (kind : StreamKind)
    (seed : Bytes)
    (kappa : UInt16) : Outcome SchemeError (PolyVec p.columns) :=
  Outcome.tabulate fun i =>
    seededMask p kind seed (maskNonce p kappa i.val)

end Sampling

end LatticeSignature
