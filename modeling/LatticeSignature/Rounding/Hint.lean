import LatticeSignature.Rounding.Buckets

/-
  A hint is one bit that says whether a small change moved a
  residue out of its bucket.  With the hint, the bucket is
  found again from the changed residue alone.

  Main declarations:
    * `Rounding.Buckets.leaves`
    * `Rounding.Buckets.neighbour`
    * `Rounding.Buckets.restore`
-/

------------------------------------------------------------
-- Hints
------------------------------------------------------------

namespace LatticeSignature

namespace Rounding

variable {ε : Type}

namespace Buckets

/-
  Whether the low part `low` lies outside of the bucket
  numbered `high`.  The lower end belongs to the first bucket
  only.
-/
def leaves
    (b : Buckets)
    (low high : Int) : Bool :=
  low > b.halfWidth
    || low < -b.halfWidth
    || (low == -b.halfWidth && high != 0)

/-
  The next bucket on the side on which a residue lies.  The
  last bucket and the first one are neighbours.
-/
def neighbour
    (b : Buckets)
    (parts : Parts) : Int :=
  match b with
  | .sixteen =>
      if parts.low > 0 then
        (parts.high + 1) % 16
      else
        (parts.high - 1) % 16
  | .fortyFour =>
      if parts.low > 0 then
        if parts.high = 43 then 0 else parts.high + 1
      else
        if parts.high = 0 then 43 else parts.high - 1

/- The bucket of `a`, corrected by a hint. -/
def restore
    (b : Buckets)
    (a : Int)
    (hint : Bool) : Outcome ε Int := do
  let parts ← b.split a
  return if hint then b.neighbour parts else parts.high

end Buckets

end Rounding

end LatticeSignature
