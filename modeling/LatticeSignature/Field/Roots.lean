import LatticeSignature.Field.Modulus

/-
  The powers of the 512-th root of unity 1753 that the
  transform multiplies by.  Entry `k` holds the power with
  the bit-reversed exponent, scaled by the Montgomery factor.

  Main declarations:
    * `Field.bitReverse`
    * `Field.rootOfUnity`
    * `Field.scaledRoot`
    * `Field.roots`
    * `Field.scaledRoot_congruent`
-/

------------------------------------------------------------
-- Root Table
------------------------------------------------------------

namespace LatticeSignature

open scoped Powers

namespace Field

/- Reverse the lowest `width` bits of a number. -/
def bitReverse : Nat → Nat → Nat
  | 0, _ => 0
  | width + 1, n =>
      2 ^ width * (n % 2) + bitReverse width (n / 2)

/- A primitive 512-th root of unity. -/
def rootOfUnity : Int :=
  1753

theorem rootOfUnity_pow_256 :
    Congruent (rootOfUnity ^ (256 : Nat)) (-1) := by
  decide

/-
  The centred representative of `2^32 * 1753^e`, where `e` is
  the index with its eight bits reversed.  Index zero belongs
  to no butterfly and holds zero.
-/
def scaledRoot
    (k : Nat) : Int :=
  if k = 0 then
    0
  else
    Int.bmod
      (2 ^ (32 : Nat) * rootOfUnity ^ bitReverse 8 k)
      8380417

theorem scaledRoot_congruent
    (k : Nat)
    (hPos : k ≠ 0) :
    Congruent
      (scaledRoot k)
      (2 ^ (32 : Nat) * rootOfUnity ^ bitReverse 8 k) := by
  simp only [scaledRoot, hPos, if_false, Congruent, q]
  exact Int.bmod_emod

/- The table of all scaled roots. -/
def roots : Vector Int 256 :=
  Vector.ofFn fun k => scaledRoot k.val

end Field

end LatticeSignature
