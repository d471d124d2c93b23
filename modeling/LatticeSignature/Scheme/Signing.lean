import LatticeSignature.Encoding.Keys
import LatticeSignature.Encoding.Signature
import LatticeSignature.Sampling.Challenge
import LatticeSignature.Scheme.Event
import LatticeSignature.Scheme.Message

/-
  Signing tries one mask after the other.  An attempt gives a
  candidate signature, or none when the candidate could tell
  something about the key or has too many hints.

  Main declarations:
    * `Scheme.Preparation`, `Scheme.prepare`
    * `Scheme.maskProduct`
    * `Scheme.Commitment`, `Scheme.commit`
    * `Scheme.challengeSeed`
    * `Scheme.response`, `Scheme.remainder`
    * `Scheme.correction`
    * `Scheme.attempt`
    * `Scheme.search`
    * `Scheme.Accepted`
    * `Scheme.accept`
    * `Scheme.sign`
-/

------------------------------------------------------------
-- Preparation
------------------------------------------------------------

namespace LatticeSignature

namespace Scheme

/- What all attempts for a message have in common. -/
structure Preparation (p : ParameterSet) where
  digest : Bytes
  maskSeed : Bytes
  matrix : Matrix p.rows p.columns
  s1 : PolyVec p.columns
  s2 : PolyVec p.rows
  t0 : PolyVec p.rows

/-
  Decode a secret key, hash the message and transform the
  secret vectors.
-/
def prepare
    (p : ParameterSet)
    (b : Backend)
    (secretKey message context : Bytes)
    (randomizer : Seed) :
    Outcome SchemeError (Preparation p) := do
  let parts ← Encoding.unpackSecretKey p secretKey
  let digest ← messageDigest parts.tr.toList context message
  let maskSeed :=
    Keccak.shake256
      (parts.key.toList ++ randomizer.toList ++ digest)
      digestBytes
  let matrix ← Sampling.matrix p b parts.rho
  let s1 ← parts.s1.transform
  let s2 ← parts.s2.transform
  let t0 ← parts.t0.transform
  return { digest, maskSeed, matrix, s1, s2, t0 }

------------------------------------------------------------
-- Commitments and Challenges
------------------------------------------------------------

/- A mask vector and its product with the matrix, split. -/
structure Commitment (p : ParameterSet) where
  mask : PolyVec p.columns
  parts : SplitVec p.rows

/- The product of the matrix and a mask, in `[0, q)`. -/
def maskProduct
    {rows columns : Nat}
    (matrix : Matrix rows columns)
    (mask : PolyVec columns) :
    Outcome SchemeError (PolyVec rows) := do
  let transformed ← mask.transform
  let product ← matrix.apply transformed
  let reduced ← product.reduce
  let w ← reduced.inverseTransform
  return w.liftNegative

/- The commitment of the attempt numbered `kappa`. -/
def commit
    {p : ParameterSet}
    (b : Backend)
    (k : Preparation p)
    (kappa : UInt16) : Outcome SchemeError (Commitment p) := do
  let mask ← Sampling.masks p b.secretStream k.maskSeed kappa
  let w ← maskProduct k.matrix mask
  let parts ← w.splitBuckets p.buckets
  return ⟨mask, parts⟩

/- The challenge seed for a commitment to a message. -/
def challengeSeed
    (p : ParameterSet)
    (digest : Bytes)
    (high : PolyVec p.rows) : Outcome SchemeError Bytes := do
  let packed ← Encoding.commitmentBytes p high
  return Keccak.shake256 (digest ++ packed) p.challengeBytes

/- The challenge of a seed, transformed. -/
def transformedChallenge
    (p : ParameterSet)
    (seed : Bytes) : Outcome SchemeError Poly := do
  let challenge ← Sampling.challenge p seed
  challenge.transform

/- The product of a transformed vector and a challenge. -/
def timesChallenge
    {n : Nat}
    (v : PolyVec n)
    (c : Poly) : Outcome SchemeError (PolyVec n) := do
  let product ← v.scale c
  product.inverseTransform

/- The response `y + c * s1` to a challenge. -/
def response
    {p : ParameterSet}
    (k : Preparation p)
    (c : Poly)
    (mask : PolyVec p.columns) :
    Outcome SchemeError (PolyVec p.columns) := do
  let cs1 ← timesChallenge k.s1 c
  cs1.add mask

/- The low parts `w0 - c * s2` that a response leaves. -/
def remainder
    {p : ParameterSet}
    (k : Preparation p)
    (c : Poly)
    (low : PolyVec p.rows) :
    Outcome SchemeError (PolyVec p.rows) := do
  let cs2 ← timesChallenge k.s2 c
  low.sub cs2

/- The correction `c * t0`, which the verifier cannot see. -/
def correction
    {p : ParameterSet}
    (k : Preparation p)
    (c : Poly) : Outcome SchemeError (PolyVec p.rows) :=
  timesChallenge k.t0 c

------------------------------------------------------------
-- Attempts
------------------------------------------------------------

/- The least magnitude that a response must not have. -/
def responseBound
    (p : ParameterSet) : Int :=
  (p.gamma1 : Int) - p.beta

/- The least magnitude that a low part must not have. -/
def lowPartBound
    (p : ParameterSet) : Int :=
  p.gamma2 - p.beta

/-
  The candidate of an attempt, unless the response, the low
  parts or the correction is too large, or the hints are too
  many.
-/
def attempt
    {p : ParameterSet}
    (b : Backend)
    (k : Preparation p)
    (kappa : UInt16) :
    Outcome SchemeError (Option (SignatureParts p)) := do
  let commitment ← commit b k kappa
  let high := commitment.parts.high
  let seed ← challengeSeed p k.digest high
  let c ← transformedChallenge p seed
  let z ← (← response k c commitment.mask).reduce
  if z.exceedsNorm (responseBound p) then
    return none
  else
    let low ← (← remainder k c commitment.parts.low).reduce
    if low.exceedsNorm (lowPartBound p) then
      return none
    else
      let ct0 ← (← correction k c).reduce
      if ct0.exceedsNorm p.gamma2 then
        return none
      else
        let corrected ← low.add ct0
        let hints := Hints.make p.buckets corrected high
        if hints.weight > p.omega then
          return none
        else
          return some ⟨seed, z, hints⟩

------------------------------------------------------------
-- Search for a Signature
------------------------------------------------------------

/-
  The first candidate from an index on, with the number of
  attempts up to it.
-/
def search
    {ε α : Type}
    (attempt : Nat → Outcome ε (Option α)) :
    (remaining index : Nat) → Outcome ε (Nat × α)
  | 0, _ => .error .overflow
  | remaining + 1, index => do
      match ← attempt index with
      | some candidate => return (index + 1, candidate)
      | none => search attempt remaining (index + 1)

/- The number of attempts that their counter can count. -/
def maxAttempts : Nat :=
  4294967295

/- A candidate and the number of attempts that it took. -/
structure Accepted (p : ParameterSet) where
  attempts : Nat
  parts : SignatureParts p

/- The accepted candidate of a message. -/
def accept
    (p : ParameterSet)
    (b : Backend)
    (secretKey message context : Bytes)
    (randomizer : Seed) :
    Outcome SchemeError (Accepted p) := do
  let k ← prepare p b secretKey message context randomizer
  let (attempts, parts) ←
    search
      (fun index => attempt b k (UInt16.ofNat index))
      maxAttempts
      0
  return ⟨attempts, parts⟩

/- Signing with its report. -/
def sign
    (p : ParameterSet)
    (b : Backend)
    (secretKey message context : Bytes)
    (randomizer : Seed) : Report SchemeError Bytes :=
  match accept p b secretKey message context randomizer with
  | .ok accepted =>
      ⟨[.signing p b, .signed p accepted.attempts],
        Encoding.packSignature p accepted.parts⟩
  | .error stop => ⟨[.signing p b], .error stop⟩

end Scheme

end LatticeSignature
