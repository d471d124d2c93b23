import LatticeSignature.Error.Primitive
import LatticeSignature.Field.Reduction
import LatticeSignature.ParameterSet

/-
  Polynomials of degree below 256, as vectors of signed words.
  The ring is that of residues modulo `q` and `X^256 + 1`;
  an operation reduces only where its name says so.

  Main declarations:
    * `Poly`
    * `Poly.ofList`
    * `Poly.zero`
    * `Poly.add`, `Poly.sub`
    * `Poly.pointwise`, `Poly.accumulate`
    * `Poly.exceedsNorm`
-/

------------------------------------------------------------
-- Polynomials
------------------------------------------------------------

namespace LatticeSignature

/- The coefficients of a polynomial, constant one first. -/
abbrev Poly :=
  Vector Int degree

namespace Poly

variable {ε : Type}

/- The zero polynomial. -/
def zero : Poly :=
  Vector.replicate degree 0

/- The polynomial with exactly 256 given coefficients. -/
def ofList
    (coefficients : List Int) : Outcome PrimitiveError Poly :=
  if hLength : coefficients.length = degree then
    .ok ⟨coefficients.toArray, by simpa using hLength⟩
  else
    Outcome.fail
      (.length
        "polynomial coefficients"
        degree
        coefficients.length)

------------------------------------------------------------
-- Operations by Coefficient
------------------------------------------------------------

/- Reduce every coefficient to a small representative. -/
def reduce
    (p : Poly) : Outcome ε Poly :=
  Outcome.mapEntries Field.reduce p

/- Add `q` to every negative coefficient. -/
def liftNegative
    (p : Poly) : Poly :=
  p.map Field.liftNegative

/- Bring every coefficient into `[0, q)`. -/
def canonical
    (p : Poly) : Outcome ε Poly :=
  Outcome.mapEntries Field.canonical p

/- Divide every coefficient by the Montgomery factor. -/
def fromMontgomery
    (p : Poly) : Outcome ε Poly :=
  Outcome.mapEntries Field.montgomeryReduce p

/- Multiply every coefficient by the Montgomery factor. -/
def toMontgomery
    (p : Poly) : Outcome ε Poly :=
  Outcome.mapEntries Field.toMontgomery p

/- Move the bits of every coefficient up. -/
def shiftLeft
    (p : Poly)
    (places : Nat) : Outcome ε Poly :=
  Outcome.mapEntries (Word.shiftLeft · places) p

/- Sum of two polynomials. -/
def add
    (p r : Poly) : Outcome ε Poly :=
  Outcome.zipEntries Word.add32 p r

/- Difference of two polynomials. -/
def sub
    (p r : Poly) : Outcome ε Poly :=
  Outcome.zipEntries Word.sub32 p r

/-
  Product by coordinate of two transformed polynomials,
  divided by the Montgomery factor.
-/
def pointwise
    (p r : Poly) : Outcome ε Poly :=
  Outcome.zipEntries Field.montgomeryMul p r

/- Add the product by coordinate to a running sum. -/
def accumulate
    (sum p r : Poly) : Outcome ε Poly :=
  Outcome.tabulate fun i => do
    let product ← Field.montgomeryMul p[i] r[i]
    Word.add32 sum[i] product

/-
  Whether a coefficient has at least the magnitude `bound`.
  A bound above `(q - 1) / 8` is exceeded by every
  polynomial.
-/
def exceedsNorm
    (p : Poly)
    (bound : Int) : Bool :=
  bound > (Field.q - 1) / 8
    || p.any fun c => Word.magnitude c ≥ bound

end Poly

end LatticeSignature
