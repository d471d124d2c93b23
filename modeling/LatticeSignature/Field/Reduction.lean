import LatticeSignature.Field.Modulus

/-
  Reductions of words to representatives modulo `q`.  None of
  them searches for the least representative; each one states
  the range that it leaves behind.

  Main declarations:
    * `Field.montgomeryReduce`
    * `Field.montgomeryMul`
    * `Field.toMontgomery`
    * `Field.reduce`
    * `Field.liftNegative`
    * `Field.canonical`
-/

------------------------------------------------------------
-- Reductions
------------------------------------------------------------

namespace LatticeSignature

namespace Field

variable {ε : Type}

/-
  Divide by `2^32` modulo `q`.  The multiple of `q` that is
  taken away has the same 32 low bits as the argument, so the
  division is exact.
-/
def montgomeryReduce
    (a : Int) : Outcome ε Int := do
  let t := Word.wrap32 (Word.wrap32 a * inverseOfModulus)
  let multiple ← Word.mul64 t q
  let d ← Word.sub64 a multiple
  return Word.wrap32 (d / 4294967296)

/- The product of two words, divided by `2^32` modulo `q`. -/
def montgomeryMul
    (a b : Int) : Outcome ε Int := do
  let product ← Word.mul64 a b
  montgomeryReduce product

/- Multiply by `2^32` modulo `q`. -/
def toMontgomery
    (a : Int) : Outcome ε Int :=
  montgomeryMul a montgomerySquare

/-
  Take away the multiple of `q` that is nearest in units of
  `2^23`.
-/
def reduce
    (a : Int) : Outcome ε Int := do
  let shifted ← Word.add32 a 4194304
  let multiple ← Word.mul32 (shifted / 8388608) q
  Word.sub32 a multiple

/- Add `q` to a negative number. -/
def liftNegative
    (a : Int) : Int :=
  if a < 0 then a + q else a

/- The representative in `[0, q)`. -/
def canonical
    (a : Int) : Outcome ε Int := do
  let r ← reduce a
  return liftNegative r

end Field

end LatticeSignature
