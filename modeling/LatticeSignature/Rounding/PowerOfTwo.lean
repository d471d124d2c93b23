import LatticeSignature.Field.Modulus

/-
  Splitting a residue at its 13 low bits.  The low part is
  centred, so it lies in `(-2^12, 2^12]`.

  Main declarations:
    * `Rounding.droppedBits`
    * `Rounding.Parts`
    * `Rounding.splitPowerOfTwo`
-/

------------------------------------------------------------
-- High and Low Parts
------------------------------------------------------------

namespace LatticeSignature

namespace Rounding

variable {ε : Type}

/- The number of low bits that a public key leaves out. -/
def droppedBits : Nat :=
  13

/- A residue that is split into two parts. -/
structure Parts where
  high : Int
  low : Int
deriving DecidableEq, Repr

/- Split `a` into `high * 2^13 + low`. -/
def splitPowerOfTwo
    (a : Int) : Outcome ε Parts := do
  let up ← Word.add32 a 4096
  let shifted ← Word.sub32 up 1
  let high := shifted / 8192
  let low ← Word.sub32 a (Word.wrap32 (high * 8192))
  return ⟨high, low⟩

end Rounding

end LatticeSignature
