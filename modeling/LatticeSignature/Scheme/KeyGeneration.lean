import LatticeSignature.Encoding.Keys
import LatticeSignature.Scheme.Event
import LatticeSignature.Scheme.Message

/-
  Keys from seeds, and the public key that belongs to a secret
  key.

  Main declarations:
    * `Scheme.KeyPairBytes`
    * `Scheme.publicVector`
    * `Scheme.expandSeed`
    * `Scheme.keyPairOfSeed`
    * `Scheme.generate`
    * `Scheme.publicKeyOfSecret`
-/

------------------------------------------------------------
-- Public Vector
------------------------------------------------------------

namespace LatticeSignature

namespace Scheme

/- The public vector `A * s1 + s2`, in `[0, q)`. -/
def publicVector
    (p : ParameterSet)
    (b : Backend)
    (rho : Seed)
    (s1 : PolyVec p.columns)
    (s2 : PolyVec p.rows) :
    Outcome SchemeError (PolyVec p.rows) := do
  let matrix ← Sampling.matrix p b rho
  let transformed ← s1.transform
  let product ← matrix.apply transformed
  let reduced ← product.reduce
  let plain ← reduced.inverseTransform
  let sum ← plain.add s2
  return sum.liftNegative

------------------------------------------------------------
-- Key Generation
------------------------------------------------------------

/- The bytes of a public key and of its secret key. -/
structure KeyPairBytes where
  publicKey : Bytes
  secretKey : Bytes
deriving DecidableEq, Repr

/- The seeds that key generation works with. -/
structure ExpandedSeed where
  rho : Seed
  secretSeed : Bytes
  key : Seed

/- The seeds that one seed expands to, by parameter set. -/
def expandSeed
    (p : ParameterSet)
    (seed : Seed) : ExpandedSeed :=
  let dimensions :=
    [UInt8.ofNat p.rows, UInt8.ofNat p.columns]
  let bytes :=
    Keccak.shake256 (seed.toList ++ dimensions) 128
  { rho := Encoding.block bytes 0 32 (by simp [bytes])
    secretSeed := Encoding.part bytes 32 64
    key := Encoding.block bytes 96 32 (by simp [bytes]) }

/- The keys of a seed. -/
def keyPairOfSeed
    (p : ParameterSet)
    (b : Backend)
    (seed : Seed) : Outcome SchemeError KeyPairBytes := do
  let seeds := expandSeed p seed
  let secrets ←
    Sampling.secrets p b.secretStream seeds.secretSeed
  let t ← publicVector p b seeds.rho secrets.s1 secrets.s2
  let split ← t.splitPowerOfTwo
  let publicKey ←
    Encoding.packPublicKey p ⟨seeds.rho, split.high⟩
  let secretKey ←
    Encoding.packSecretKey p
      { rho := seeds.rho
        key := seeds.key
        tr := keyDigest publicKey
        s1 := secrets.s1
        s2 := secrets.s2
        t0 := split.low }
  return ⟨publicKey, secretKey⟩

/- Key generation with its report. -/
def generate
    (p : ParameterSet)
    (b : Backend)
    (seed : Seed) : Report SchemeError KeyPairBytes :=
  ⟨[.generating p b], keyPairOfSeed p b seed⟩

/-
  The public key that belongs to a secret key.  The digest in
  the secret key has to be that of the public key.
-/
def publicKeyOfSecret
    (p : ParameterSet)
    (b : Backend)
    (secretKey : Bytes) : Outcome SchemeError Bytes := do
  let parts ← Encoding.unpackSecretKey p secretKey
  let t ← publicVector p b parts.rho parts.s1 parts.s2
  let split ← t.splitPowerOfTwo
  let publicKey ←
    Encoding.packPublicKey p ⟨parts.rho, split.high⟩
  Outcome.require
    (keyDigest publicKey == parts.tr)
    (.invalidKey "stored tr does not match the public key")
  return publicKey

end Scheme

end LatticeSignature
