import LatticeSignature.Proofs.Encoding.Bounds
import LatticeSignature.Proofs.Ring.Bounds
import LatticeSignature.Proofs.Sampling.Bounds
import LatticeSignature.Proofs.Scheme.KeyGeneration

/-
  Key generation, and the public key of a secret key, stay in
  their words and in the bounds of their strings.  The secret
  key may be any byte string that is accepted as one.

  Main declarations:
    * `Guarded.publicVector`, `Guarded.publicVector_runs`
    * `Guarded.keyPairOfSeed`, `Guarded.keyPairOfSeed_runs`
    * `Guarded.publicKeyOfSecret`
    * `Guarded.publicKeyOfSecret_runs`
    * `Scheme.keyPairOfSeed_ne_overflow`
    * `Scheme.publicKeyOfSecret_ne_overflow`
-/

------------------------------------------------------------
-- Guarded Key Handling
------------------------------------------------------------

namespace LatticeSignature

namespace Guarded

open Outcome Access Scheme

variable {p : ParameterSet}

/- The public vector `A * s1 + s2`, in `[0, q)`. -/
def publicVector
    (p : ParameterSet)
    (b : Backend)
    (rho : Seed)
    (s1 : PolyVec p.columns)
    (s2 : PolyVec p.rows) :
    Access SchemeError (PolyVec p.rows) := do
  let a ← matrix p b rho
  let transformed ← transform s1
  let product ← ofOutcome (a.apply transformed)
  let reduced ← ofOutcome product.reduce
  let plain ← inverseTransform reduced
  let sum ← ofOutcome (plain.add s2)
  liftNegative sum

/- The seeds that one seed expands to, by parameter set. -/
def expandSeed
    (p : ParameterSet)
    (seed : Seed) : Access SchemeError ExpandedSeed := do
  let dimensions :=
    [UInt8.ofNat p.rows, UInt8.ofNat p.columns]
  let bytes :=
    Keccak.shake256 (seed.toList ++ dimensions) 128
  let rho ← readBlock bytes 0 32
  let secretSeed ← slice bytes 32 96
  let key ← readBlock bytes 96 32
  return ⟨rho, secretSeed, key⟩

/- The keys of a seed. -/
def keyPairOfSeed
    (p : ParameterSet)
    (b : Backend)
    (seed : Seed) : Access SchemeError KeyPairBytes := do
  let seeds ← expandSeed p seed
  let pair ← secrets p b.secretStream seeds.secretSeed
  let t ← publicVector p b seeds.rho pair.s1 pair.s2
  let split ← splitPowerOfTwo t
  let publicKey ← writePublicKey p ⟨seeds.rho, split.high⟩
  let secretKey ←
    writeSecretKey p
      { rho := seeds.rho
        key := seeds.key
        tr := keyDigest publicKey
        s1 := pair.s1
        s2 := pair.s2
        t0 := split.low }
  return ⟨publicKey, secretKey⟩

/- The public key that belongs to a secret key. -/
def publicKeyOfSecret
    (p : ParameterSet)
    (b : Backend)
    (secretKey : Bytes) : Access SchemeError Bytes := do
  let parts ← readSecretKey p secretKey
  let t ← publicVector p b parts.rho parts.s1 parts.s2
  let split ← splitPowerOfTwo t
  let publicKey ← writePublicKey p ⟨parts.rho, split.high⟩
  ofOutcome
    (require
      (keyDigest publicKey == parts.tr)
      (.invalidKey "stored tr does not match the public key"))
  return publicKey

------------------------------------------------------------
-- Runs of Key Handling
------------------------------------------------------------

/- Secrets of any bytes in their range make a public vector. -/
theorem publicVector_runs
    (b : Backend)
    (rho : Seed)
    {s1 : PolyVec p.columns}
    {s2 : PolyVec p.rows}
    (h1 : s1.Within p.eta)
    (h2 : s2.Within p.eta) :
    Runs (publicVector p b rho s1 s2)
      (Scheme.publicVector p b rho s1 s2) := by
  have hEta := p.eta_le
  have hSmall : s1.Within (Field.q - 1) :=
    h1.mono (hEta.trans (by decide))
  refine (matrix_runs p b rho).bind_ends
    (Sampling.matrix_yields p b rho) ?_
  intro a ha
  refine matrixProduct_runs ha hSmall p.columns_le ?_
  intro plain hPlain
  refine (runs_ofOutcome _).bind_returns
    (PolyVec.add_returns hPlain h2 (by omega)) ?_
  rintro sum ⟨_, hSum, _⟩
  refine liftNegative_runs (hSum.mono ?_)
  unfold Field.q
  omega

theorem expandSeed_runs
    (p : ParameterSet)
    (seed : Seed) :
    Runs (expandSeed p seed) (.ok (Scheme.expandSeed p seed)) := by
  have hLength :
      (Keccak.shake256
        (seed.toList
          ++ [UInt8.ofNat p.rows, UInt8.ofNat p.columns])
        128).length = 128 :=
    Keccak.length_shake256 _ _
  unfold expandSeed
  refine (readBlock_runs (by omega)).ok_bind ?_
  refine (runs_slice (by decide) (by omega)).ok_bind ?_
  refine (readBlock_runs (by omega)).ok_bind ?_
  exact runs_pure _

/- Keys are generated in bounds. -/
theorem keyPairOfSeed_runs
    (p : ParameterSet)
    (b : Backend)
    (seed : Seed) :
    Runs (keyPairOfSeed p b seed)
      (Scheme.keyPairOfSeed p b seed) := by
  have hSeed :
      32 ≤ (Scheme.expandSeed p seed).secretSeed.length := by
    rw [length_secretSeed]
    omega
  refine (expandSeed_runs p seed).ok_bind ?_
  refine (secrets_runs p b.secretStream _).bind_ends
    (Sampling.secrets_yields p b.secretStream hSeed) ?_
  rintro pair ⟨h1, h2⟩
  refine (publicVector_runs b _ h1 h2).bind_ends
    (publicVector_yields b _ h1 h2) ?_
  rintro t ⟨_, _, _, hCanonical, _⟩
  refine (splitPowerOfTwo_runs hCanonical).bind_returns
    (splitPublicVector_returns hCanonical) ?_
  rintro split ⟨hHigh, hLow⟩
  refine (writePublicKey_runs (hHigh _)).bind ?_
  intro publicKey _
  have hKey :
      SecretParts.InRange (p := p)
        { rho := (Scheme.expandSeed p seed).rho
          key := (Scheme.expandSeed p seed).key
          tr := keyDigest publicKey
          s1 := pair.s1
          s2 := pair.s2
          t0 := split.low } :=
    ⟨h1, h2, hLow⟩
  refine (writeSecretKey_runs hKey).bind ?_
  intro secretKey _
  exact runs_pure _

theorem publicKeyOfSecret_runs
    (p : ParameterSet)
    (b : Backend)
    (secretKey : Bytes) :
    Runs (publicKeyOfSecret p b secretKey)
      (Scheme.publicKeyOfSecret p b secretKey) := by
  refine (readSecretKey_runs p secretKey).bind_ends
    (Encoding.unpackSecretKey_decides p secretKey) ?_
  rintro parts ⟨hRange, _⟩
  refine (publicVector_runs b _ hRange.s1 hRange.s2).bind_ends
    (publicVector_yields b _ hRange.s1 hRange.s2) ?_
  rintro t ⟨_, _, _, hCanonical, _⟩
  refine (splitPowerOfTwo_runs hCanonical).bind_returns
    (splitPublicVector_returns hCanonical) ?_
  rintro split ⟨hHigh, _⟩
  refine (writePublicKey_runs (hHigh _)).bind ?_
  intro publicKey _
  refine (runs_ofOutcome _).bind ?_
  intro _ _
  exact runs_pure _

end Guarded

------------------------------------------------------------
-- Stops of Key Handling
------------------------------------------------------------

namespace Scheme

open Outcome

theorem keyPairOfSeed_ne_overflow
    (p : ParameterSet)
    (b : Backend)
    (seed : Seed) :
    keyPairOfSeed p b seed ≠ .error .overflow :=
  (keyPairOfSeed_yields p b seed).noOverflow.ne_overflow

/- The secret key need not come from key generation. -/
theorem publicKeyOfSecret_ne_overflow
    (p : ParameterSet)
    (b : Backend)
    (secretKey : Bytes) :
    publicKeyOfSecret p b secretKey ≠ .error .overflow := by
  suffices h :
      NoOverflow (publicKeyOfSecret p b secretKey)
        fun _ => True from
    h.ne_overflow
  refine (Encoding.unpackSecretKey_decides p
    secretKey).noOverflow.bind ?_
  rintro parts ⟨hRange, _⟩
  refine (publicVector_yields b _ hRange.s1
    hRange.s2).noOverflow.bind ?_
  rintro t ⟨_, _, _, hCanonical, _⟩
  refine (splitPublicVector_returns hCanonical).ends.bind ?_
  rintro split ⟨hHigh, _⟩
  refine (Encoding.packPublicKey_returns
    (hHigh _)).ends.bind ?_
  intro publicKey _
  refine (require_decides _ _).noOverflow.bind ?_
  intro _ _
  exact (returns_ok trivial).ends

end Scheme

end LatticeSignature
