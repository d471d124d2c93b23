import LatticeSignature.Rounding.PowerOfTwo

/-
  The residues modulo `q` lie in buckets of equal width, and
  the last residue `q - 1` belongs to the first bucket.  A
  residue is split into the number of its bucket and its
  signed distance from the middle of the bucket.

  Main declarations:
    * `Rounding.Buckets`
    * `Rounding.Buckets.count`
    * `Rounding.Buckets.halfWidth`
    * `Rounding.Buckets.count_mul_width`
    * `Rounding.Buckets.split`
-/

------------------------------------------------------------
-- Buckets
------------------------------------------------------------

namespace LatticeSignature

namespace Rounding

variable {ε : Type}

/- The two ways in which the residues are divided. -/
inductive Buckets where
  | sixteen
  | fortyFour
deriving DecidableEq, Repr

namespace Buckets

/- The number of buckets. -/
def count : Buckets → Int
  | .sixteen => 16
  | .fortyFour => 44

/- Half of the width of a bucket. -/
def halfWidth : Buckets → Int
  | .sixteen => 261888
  | .fortyFour => 95232

/- The buckets cover all residues but one. -/
theorem count_mul_width
    (b : Buckets) :
    b.count * (2 * b.halfWidth) = Field.q - 1 := by
  cases b <;> rfl

/- The division with a given half width. -/
def ofHalfWidth?
    (width : Int) : Option Buckets :=
  if width = 261888 then
    some .sixteen
  else if width = 95232 then
    some .fortyFour
  else
    none

/-
  The number of the bucket, by a multiplication with a scaled
  reciprocal of its width.
-/
def index
    (b : Buckets)
    (a : Int) : Outcome ε Int := do
  let up ← Word.add32 a 127
  let coarse := up / 128
  match b with
  | .sixteen =>
      let scaled ← Word.mul32 coarse 1025
      let rounded ← Word.add32 scaled 2097152
      return (rounded / 4194304) % 16
  | .fortyFour =>
      let scaled ← Word.mul32 coarse 11275
      let rounded ← Word.add32 scaled 8388608
      let high := rounded / 16777216
      return if high > 43 then 0 else high

/-
  Split `a` into `high * 2 * halfWidth + low`.  A low part
  above `(q - 1) / 2` is moved down by `q`.
-/
def split
    (b : Buckets)
    (a : Int) : Outcome ε Parts := do
  let high ← b.index a
  let twice ← Word.mul32 high 2
  let start ← Word.mul32 twice b.halfWidth
  let low ← Word.sub32 a start
  let above ← Word.sub32 ((Field.q - 1) / 2) low
  let centred ←
    Word.sub32 low (if above < 0 then Field.q else 0)
  return ⟨high, centred⟩

end Buckets

end Rounding

end LatticeSignature
