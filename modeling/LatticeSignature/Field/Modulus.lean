import LatticeSignature.Word

/-
  The coefficient field of the scheme: the integers modulo
  the prime `q = 2^23 - 2^13 + 1`, with the constants that
  belong to it.

  Main declarations:
    * `Field.q`
    * `Field.bits`
    * `Field.inverseOfModulus`
    * `Field.montgomeryOne`
    * `Field.montgomerySquare`
    * `Field.inverseScale`
    * `Field.Congruent`
-/

------------------------------------------------------------
-- Constants and Congruence
------------------------------------------------------------

namespace LatticeSignature

open scoped Powers

namespace Field

/- The modulus. -/
def q : Int :=
  8380417

/- The number of bits of the modulus. -/
def bits : Nat :=
  23

/- The inverse of the modulus, modulo `2^32`. -/
def inverseOfModulus : Int :=
  58728449

/- The Montgomery factor `2^32`, modulo `q`. -/
def montgomeryOne : Int :=
  4193792

/- The square of the Montgomery factor, modulo `q`. -/
def montgomerySquare : Int :=
  2365951

/-
  The square of the Montgomery factor divided by 256,
  modulo `q`.
-/
def inverseScale : Int :=
  41978

/- Two integers with the same residue modulo `q`. -/
def Congruent
    (a b : Int) : Prop :=
  a % q = b % q

instance
    (a b : Int) :
    Decidable (Congruent a b) := by
  unfold Congruent
  infer_instance

theorem inverseOfModulus_mul_q :
    inverseOfModulus * q % 4294967296 = 1 := by
  decide

theorem montgomeryOne_congruent :
    Congruent montgomeryOne (2 ^ (32 : Nat)) := by
  decide

theorem montgomerySquare_congruent :
    Congruent montgomerySquare (2 ^ (64 : Nat)) := by
  decide

theorem inverseScale_congruent :
    Congruent (256 * inverseScale) (2 ^ (64 : Nat)) := by
  decide

end Field

end LatticeSignature
