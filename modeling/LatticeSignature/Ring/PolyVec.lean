import LatticeSignature.Ring.Transform
import LatticeSignature.Rounding.Hint

/-
  Vectors of polynomials, their products with matrices, and
  their high and low parts.

  Main declarations:
    * `PolyVec`, `Matrix`
    * `PolyVec.inner`
    * `Matrix.apply`
    * `PolyVec.splitPowerOfTwo`, `PolyVec.splitBuckets`
    * `Hints`
    * `Hints.make`, `Hints.apply`
-/

------------------------------------------------------------
-- Vectors and Matrices
------------------------------------------------------------

namespace LatticeSignature

open scoped Sums

/- A vector of `n` polynomials. -/
abbrev PolyVec (n : Nat) :=
  Vector Poly n

namespace PolyVec

variable {ε : Type}
variable {n : Nat}

/- The zero vector. -/
def zero : PolyVec n :=
  Vector.replicate n Poly.zero

/- Transform every polynomial. -/
def transform
    (v : PolyVec n) : Outcome ε (PolyVec n) :=
  Outcome.mapEntries Poly.transform v

/- Undo the transform of every polynomial. -/
def inverseTransform
    (v : PolyVec n) : Outcome ε (PolyVec n) :=
  Outcome.mapEntries Poly.inverseTransform v

/- Reduce every coefficient to a small representative. -/
def reduce
    (v : PolyVec n) : Outcome ε (PolyVec n) :=
  Outcome.mapEntries Poly.reduce v

/- Add `q` to every negative coefficient. -/
def liftNegative
    (v : PolyVec n) : PolyVec n :=
  v.map Poly.liftNegative

/- Move the bits of every coefficient up. -/
def shiftLeft
    (v : PolyVec n)
    (places : Nat) : Outcome ε (PolyVec n) :=
  Outcome.mapEntries (Poly.shiftLeft · places) v

/- Sum of two vectors. -/
def add
    (v w : PolyVec n) : Outcome ε (PolyVec n) :=
  Outcome.zipEntries Poly.add v w

/- Difference of two vectors. -/
def sub
    (v w : PolyVec n) : Outcome ε (PolyVec n) :=
  Outcome.zipEntries Poly.sub v w

/- Multiply every polynomial by one, by coordinate. -/
def scale
    (v : PolyVec n)
    (c : Poly) : Outcome ε (PolyVec n) :=
  Outcome.mapEntries (Poly.pointwise c) v

/- The sum of the products by coordinate of two vectors. -/
def inner
    (v w : PolyVec n) : Outcome ε Poly :=
  Fin.foldlM n
    (fun sum i => Poly.accumulate sum v[i] w[i])
    Poly.zero

/- Whether a coefficient has at least the magnitude `bound`. -/
def exceedsNorm
    (v : PolyVec n)
    (bound : Int) : Bool :=
  v.any (Poly.exceedsNorm · bound)

end PolyVec

/- A matrix of polynomials, by rows. -/
abbrev Matrix (rows columns : Nat) :=
  Vector (PolyVec columns) rows

namespace Matrix

variable {ε : Type}
variable {rows columns : Nat}

/- Multiply a transformed vector by a transformed matrix. -/
def apply
    (a : Matrix rows columns)
    (v : PolyVec columns) : Outcome ε (PolyVec rows) :=
  Outcome.mapEntries (PolyVec.inner · v) a

end Matrix

------------------------------------------------------------
-- Parts and Hints
------------------------------------------------------------

/- A vector that is split into two parts. -/
structure SplitVec (n : Nat) where
  high : PolyVec n
  low : PolyVec n

namespace PolyVec

variable {ε : Type}
variable {n : Nat}

/- Split every coefficient. -/
def splitWith
    (split : Int → Outcome ε Rounding.Parts)
    (v : PolyVec n) : Outcome ε (SplitVec n) := do
  let parts ← Outcome.mapEntries (Outcome.mapEntries split) v
  return {
    high := parts.map fun p => p.map Rounding.Parts.high
    low := parts.map fun p => p.map Rounding.Parts.low }

/- Split every coefficient at its 13 low bits. -/
def splitPowerOfTwo
    (v : PolyVec n) : Outcome ε (SplitVec n) :=
  v.splitWith Rounding.splitPowerOfTwo

/- Split every coefficient by buckets. -/
def splitBuckets
    (v : PolyVec n)
    (b : Rounding.Buckets) : Outcome ε (SplitVec n) :=
  v.splitWith b.split

end PolyVec

/- One hint for every coefficient of a vector. -/
abbrev Hints (n : Nat) :=
  Vector (Vector Bool degree) n

namespace Hints

variable {ε : Type}
variable {n : Nat}

/- The number of hints of a row that are set. -/
def rowWeight
    (row : Vector Bool degree) : Nat :=
  row.toList.count true

/- The number of hints that are set. -/
def weight
    (h : Hints n) : Nat :=
  (h.toList.map rowWeight).sum

/- The hints for low parts that may have left their buckets. -/
def make
    (b : Rounding.Buckets)
    (low high : PolyVec n) : Hints n :=
  Vector.zipWith (Vector.zipWith b.leaves) low high

/- The buckets of the coefficients, corrected by hints. -/
def apply
    (h : Hints n)
    (b : Rounding.Buckets)
    (v : PolyVec n) : Outcome ε (PolyVec n) :=
  Outcome.zipEntries (Outcome.zipEntries b.restore) v h

end Hints

end LatticeSignature
