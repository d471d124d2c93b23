import LatticeSignature.Scheme.Signing

/-
  A signature is valid when the commitment that it leads back
  to has the challenge seed of the signature.

  Main declarations:
    * `Scheme.difference`
    * `Scheme.restoreCommitment`
    * `Scheme.check`
    * `Scheme.verify`
-/

------------------------------------------------------------
-- Verification
------------------------------------------------------------

namespace LatticeSignature

namespace Scheme

/- The difference `A * z - c * t1 * 2^13`, in `[0, q)`. -/
def difference
    {p : ParameterSet}
    (b : Backend)
    (key : PublicParts p)
    (signature : SignatureParts p) :
    Outcome SchemeError (PolyVec p.rows) := do
  let c ← transformedChallenge p signature.challenge
  let matrix ← Sampling.matrix p b key.rho
  let z ← signature.z.transform
  let az ← matrix.apply z
  let shifted ← key.t1.shiftLeft Rounding.droppedBits
  let t1 ← shifted.transform
  let ct1 ← t1.scale c
  let product ← az.sub ct1
  let reduced ← product.reduce
  let w ← reduced.inverseTransform
  return w.liftNegative

/- The buckets of the difference, corrected by the hints. -/
def restoreCommitment
    {p : ParameterSet}
    (b : Backend)
    (key : PublicParts p)
    (signature : SignatureParts p) :
    Outcome SchemeError (PolyVec p.rows) := do
  let w ← difference b key signature
  signature.hints.apply p.buckets w

/- Whether a signature fits a message, a context and a key. -/
def check
    (p : ParameterSet)
    (b : Backend)
    (publicKey message context signature : Bytes) :
    Outcome SchemeError Bool := do
  let key ← Encoding.unpackPublicKey p publicKey
  let parts ← Encoding.unpackSignature p signature
  if parts.z.exceedsNorm (responseBound p) then
    return false
  else
    let digest ←
      messageDigest (keyDigest publicKey).toList context message
    let w ← restoreCommitment b key parts
    let seed ← challengeSeed p digest w
    return parts.challenge == seed

/-
  Verification with its report.  Every refusal has the same
  cause, whatever led to it.
-/
def verify
    (p : ParameterSet)
    (b : Backend)
    (publicKey message context signature : Bytes) :
    Report SchemeError Unit :=
  ⟨[.verifying p b],
    match check p b publicKey message context signature with
    | .ok true => .ok ()
    | .error .overflow => .error .overflow
    | .error .exhausted => .error .exhausted
    | .ok false | .error (.error _) =>
        Outcome.fail (.verification p.name)⟩

end Scheme

end LatticeSignature
