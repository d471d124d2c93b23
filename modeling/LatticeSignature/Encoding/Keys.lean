import LatticeSignature.Encoding.Coefficients
import LatticeSignature.Encoding.Sections
import LatticeSignature.Sampling.Expansion

/-
  The byte forms of keys.  A public key holds a seed and the
  high parts of the public vector; a secret key holds seeds, a
  digest, the secret vectors and the low parts.

  Main declarations:
    * `PublicParts`
    * `Encoding.packPublicKey`, `Encoding.unpackPublicKey`
    * `SecretParts`
    * `Encoding.packSecretKey`, `Encoding.unpackSecretKey`
-/

------------------------------------------------------------
-- Public Keys
------------------------------------------------------------

namespace LatticeSignature

/- What a public key holds. -/
structure PublicParts (p : ParameterSet) where
  rho : Seed
  t1 : PolyVec p.rows

/- What a secret key holds. -/
structure SecretParts (p : ParameterSet) where
  rho : Seed
  key : Seed
  tr : Vector UInt8 64
  s1 : PolyVec p.columns
  s2 : PolyVec p.rows
  t0 : PolyVec p.rows

namespace Encoding

/- The bytes of a public key. -/
def packPublicKey
    (p : ParameterSet)
    (parts : PublicParts p) : Outcome SchemeError Bytes := do
  let t1 ←
    packVec (packHighPart (packedBytes highPartBits)) parts.t1
  return parts.rho.toList ++ t1

/- The parts of a public key of the right size. -/
def unpackPublicKey
    (p : ParameterSet)
    (bytes : Bytes) : Outcome SchemeError (PublicParts p) :=
  if hSize : bytes.length = p.publicKeyBytes then do
    let rho :=
      block bytes 0 32 (by
        rw [hSize]
        unfold ParameterSet.publicKeyBytes seedBytes
        omega)
    let t1 ←
      unpackVec p.rows (packedBytes highPartBits)
        unpackHighPart
        (bytes.drop 32)
    return ⟨rho, t1⟩
  else
    Outcome.fail
      (.invalidKeySize p.publicKeyBytes bytes.length)

------------------------------------------------------------
-- Secret Keys
------------------------------------------------------------

/- The bytes of a secret key. -/
def packSecretKey
    (p : ParameterSet)
    (parts : SecretParts p) : Outcome SchemeError Bytes := do
  let s1 ← packVec (packSecret p p.secretPolyBytes) parts.s1
  let s2 ← packVec (packSecret p p.secretPolyBytes) parts.s2
  let t0 ←
    packVec
      (packLowPart (packedBytes Rounding.droppedBits))
      parts.t0
  return parts.rho.toList ++ parts.key.toList
    ++ parts.tr.toList ++ s1 ++ s2 ++ t0

theorem seeds_le_secretKeyBytes
    (p : ParameterSet) :
    128 ≤ p.secretKeyBytes := by
  unfold ParameterSet.secretKeyBytes seedBytes keyDigestBytes
  omega

/-
  The parts of a secret key of the right size, whose secret
  coefficients are in range.
-/
def unpackSecretKey
    (p : ParameterSet)
    (bytes : Bytes) : Outcome SchemeError (SecretParts p) :=
  if hSize : bytes.length = p.secretKeyBytes then do
    have hSeeds : 128 ≤ bytes.length :=
      hSize ▸ seeds_le_secretKeyBytes p
    let rho := block bytes 0 32 (by omega)
    let key := block bytes 32 32 (by omega)
    let tr := block bytes 64 64 (by omega)
    let vectors := bytes.drop 128
    let s1Size := p.columns * p.secretPolyBytes
    let s2Size := p.rows * p.secretPolyBytes
    let s1 ←
      unpackVec p.columns p.secretPolyBytes
        (unpackSecret p)
        vectors
    let s2 ←
      unpackVec p.rows p.secretPolyBytes
        (unpackSecret p)
        (vectors.drop s1Size)
    let t0 ←
      unpackVec p.rows (packedBytes Rounding.droppedBits)
        unpackLowPart
        (vectors.drop (s1Size + s2Size))
    return ⟨rho, key, tr, s1, s2, t0⟩
  else
    Outcome.fail
      (.invalidKeySize p.secretKeyBytes bytes.length)

end Encoding

end LatticeSignature
