import LatticeSignature.Encoding.Coefficients
import LatticeSignature.Encoding.Hints
import LatticeSignature.Encoding.Sections

/-
  The byte form of signatures: a challenge seed, the response
  vector and the hint section.

  Main declarations:
    * `SignatureParts`
    * `Encoding.packSignature`
    * `Encoding.unpackSignature`
-/

------------------------------------------------------------
-- Signatures
------------------------------------------------------------

namespace LatticeSignature

/- What a signature holds. -/
structure SignatureParts (p : ParameterSet) where
  challenge : Bytes
  z : PolyVec p.columns
  hints : Hints p.rows

namespace Encoding

/- The bytes of a signature. -/
def packSignature
    (p : ParameterSet)
    (parts : SignatureParts p) : Outcome SchemeError Bytes := do
  Outcome.require
    (parts.challenge.length == p.challengeBytes)
    (.invalidSignatureSize
      p.challengeBytes
      parts.challenge.length)
  let z ← packVec (packResponse p p.responsePolyBytes) parts.z
  let hints ← packHints p p.hintBytes parts.hints
  return parts.challenge ++ z ++ hints

/-
  The parts of a signature of the right size.  The hint
  section has only one valid form for its hints.
-/
def unpackSignature
    (p : ParameterSet)
    (bytes : Bytes) :
    Outcome SchemeError (SignatureParts p) := do
  Outcome.require
    (bytes.length == p.signatureBytes)
    (.invalidSignatureSize p.signatureBytes bytes.length)
  let rest := bytes.drop p.challengeBytes
  let zSize := p.columns * p.responsePolyBytes
  let z ←
    unpackVec p.columns p.responsePolyBytes
      (unpackResponse p)
      rest
  let hints ← unpackHints p (rest.drop zSize)
  return ⟨bytes.take p.challengeBytes, z, hints⟩

end Encoding

end LatticeSignature
