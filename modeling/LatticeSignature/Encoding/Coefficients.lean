import LatticeSignature.Error.Scheme
import LatticeSignature.Ring.Packing
import LatticeSignature.Ring.PolyVec

/-
  The packed forms of polynomials in keys and signatures.  A
  signed coefficient `c` is stored as the field `offset - c`,
  which is not negative in the range that the form is for.

  Main declarations:
    * `Encoding.packHighPart`, `Encoding.unpackHighPart`
    * `Encoding.packLowPart`, `Encoding.unpackLowPart`
    * `Encoding.packSecret`, `Encoding.unpackSecret`
    * `Encoding.packResponse`, `Encoding.unpackResponse`
    * `Encoding.packCommitment`
    * `Encoding.commitmentBytes`
-/

------------------------------------------------------------
-- Offset Fields
------------------------------------------------------------

namespace LatticeSignature

namespace Encoding

/- Pack the distances of the coefficients below an offset. -/
def packOffset
    (offset : Int)
    (width space : Nat)
    (p : Poly) : Outcome SchemeError Bytes := do
  let shifted ← Outcome.mapEntries (Word.sub32 offset) p
  SchemeError.lift (Packing.pack width space shifted)

/- Unpack coefficients from their distances below an offset. -/
def unpackOffset
    (offset : Int)
    (width : Nat)
    (bytes : Bytes) : Outcome SchemeError Poly := do
  let raw ← SchemeError.lift (Packing.unpack width bytes)
  Outcome.mapEntries (Word.sub32 offset) raw

------------------------------------------------------------
-- Packed Forms
------------------------------------------------------------

/- Pack high parts, which lie in `[0, 2^10)`. -/
def packHighPart
    (space : Nat)
    (p : Poly) : Outcome SchemeError Bytes :=
  SchemeError.lift (Packing.pack highPartBits space p)

/- Unpack high parts. -/
def unpackHighPart
    (bytes : Bytes) : Outcome SchemeError Poly :=
  SchemeError.lift (Packing.unpack highPartBits bytes)

/- The offset of low parts. -/
def lowPartOffset : Int :=
  4096

/- Pack low parts, which lie in `(-2^12, 2^12]`. -/
def packLowPart
    (space : Nat)
    (p : Poly) : Outcome SchemeError Bytes :=
  packOffset lowPartOffset Rounding.droppedBits space p

/- Unpack low parts. -/
def unpackLowPart
    (bytes : Bytes) : Outcome SchemeError Poly :=
  unpackOffset lowPartOffset Rounding.droppedBits bytes

/- Pack secret coefficients, which lie in `[-eta, eta]`. -/
def packSecret
    (p : ParameterSet)
    (space : Nat)
    (s : Poly) : Outcome SchemeError Bytes :=
  packOffset p.eta p.secretBits space s

/- Unpack secret coefficients and refuse those below `-eta`. -/
def unpackSecret
    (p : ParameterSet)
    (bytes : Bytes) : Outcome SchemeError Poly := do
  let s ← unpackOffset p.eta p.secretBits bytes
  if s.any fun c => c < -(p.eta : Int) then
    Outcome.fail
      (.deserialization "secret coefficient out of range")
  else
    return s

/- Pack responses, which lie in `(-gamma1, gamma1]`. -/
def packResponse
    (p : ParameterSet)
    (space : Nat)
    (z : Poly) : Outcome SchemeError Bytes :=
  packOffset p.gamma1 p.responseBits space z

/- Unpack responses. -/
def unpackResponse
    (p : ParameterSet)
    (bytes : Bytes) : Outcome SchemeError Poly :=
  unpackOffset p.gamma1 p.responseBits bytes

/- Pack the numbers of commitment buckets. -/
def packCommitment
    (p : ParameterSet)
    (space : Nat)
    (w : Poly) : Outcome SchemeError Bytes :=
  SchemeError.lift (Packing.pack p.commitmentBits space w)

/- The bytes of a commitment, as they are hashed. -/
def commitmentBytes
    (p : ParameterSet)
    (w : PolyVec p.rows) : Outcome SchemeError Bytes := do
  let packed ←
    Outcome.mapEntries
      (packCommitment p p.commitmentPolyBytes)
      w
  return packed.toList.flatten

end Encoding

end LatticeSignature
