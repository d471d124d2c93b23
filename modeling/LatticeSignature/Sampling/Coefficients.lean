import LatticeSignature.Error.Scheme
import LatticeSignature.Ring.Packing
import LatticeSignature.Sampling.Rejection
import LatticeSignature.Stream.BlockReader
import LatticeSignature.Stream.Seeded

/-
  Polynomials sampled from byte sources: uniform modulo `q`,
  uniform in a small interval, and masks without rejection.

  Main declarations:
    * `Sampling.drawResidue`, `Sampling.uniform`
    * `Sampling.smallOfNibble`, `Sampling.drawSmall`
    * `Sampling.small`
    * `Sampling.mask`
    * `Sampling.seededReader`
-/

------------------------------------------------------------
-- Coefficients
------------------------------------------------------------

namespace LatticeSignature

namespace Sampling

variable {ε σ : Type}
variable [ByteSource σ]

/-
  Draw a candidate from the 23 low bits of three bytes, and
  accept it below `q`.
-/
def drawResidue
    (s : σ) : List Int × σ :=
  let (bytes, s) := ByteSource.read 3 s
  let candidate : Int := Bytes.toNatLE bytes % 8388608
  (if candidate < Field.q then [candidate] else [], s)

/- A polynomial with uniform coefficients in `[0, q)`. -/
def uniform
    (s : σ) : Outcome ε Poly :=
  collectVector drawResidue maxDraws degree s

/-
  The coefficient in `[-eta, eta]` that belongs to four bits,
  unless they are rejected.
-/
def smallOfNibble
    (eta nibble : Nat) : Option Int :=
  if eta = 2 ∧ nibble < 15 then
    some (2 - (nibble % 5 : Nat))
  else if eta = 4 ∧ nibble < 9 then
    some (4 - (nibble : Int))
  else
    none

/- Draw the two halves of a byte, the lower one first. -/
def drawSmall
    (eta : Nat)
    (s : σ) : List Int × σ :=
  let (b, s) := ByteSource.next s
  ([b.toNat % 16, b.toNat / 16].filterMap (smallOfNibble eta), s)

/- A polynomial with uniform coefficients in `[-eta, eta]`. -/
def small
    (eta : Nat)
    (s : σ) : Outcome ε Poly :=
  collectVector (drawSmall eta) maxDraws degree s

/-
  A polynomial with coefficients in `(-gamma1, gamma1]`, from
  the fields in the first bytes of a source.
-/
def mask
    (p : ParameterSet)
    (s : σ) : Outcome SchemeError Poly := do
  let bytes := (ByteSource.read p.responsePolyBytes s).1
  let raw ← SchemeError.lift (Packing.unpack p.responseBits bytes)
  Outcome.mapEntries (Word.sub32 p.gamma1) raw

------------------------------------------------------------
-- Seeded Samplers
------------------------------------------------------------

/- A reader of the stream of a seed and a nonce. -/
def seededReader
    (kind : StreamKind)
    (seed : Bytes)
    (nonce : UInt16) :
    Outcome SchemeError (BlockReader SeededStream) := do
  let stream ←
    SchemeError.lift (SeededStream.start kind seed nonce)
  return .ofSource stream kind.blockBytes

/- The uniform polynomial of a seed and a nonce. -/
def seededUniform
    (kind : StreamKind)
    (seed : Bytes)
    (nonce : UInt16) : Outcome SchemeError Poly := do
  let reader ← seededReader kind seed nonce
  uniform reader

/- The small polynomial of a seed and a nonce. -/
def seededSmall
    (eta : Nat)
    (kind : StreamKind)
    (seed : Bytes)
    (nonce : UInt16) : Outcome SchemeError Poly := do
  let reader ← seededReader kind seed nonce
  small eta reader

/- The mask polynomial of a seed and a nonce. -/
def seededMask
    (p : ParameterSet)
    (kind : StreamKind)
    (seed : Bytes)
    (nonce : UInt16) : Outcome SchemeError Poly := do
  let reader ← seededReader kind seed nonce
  mask p reader

end Sampling

end LatticeSignature
