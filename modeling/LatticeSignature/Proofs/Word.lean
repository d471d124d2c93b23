import LatticeSignature.Word
import Mathlib.Tactic.Ring

/-
  The bits of words, in two's complement.  Shifts, masks and
  the halves of long words are operations on these bits, and
  each is an operation on the number that the word stands for.

  Main declarations:
    * `Word.and32`, `Word.xor32`, `Word.shiftRight`
    * `Word.shiftRight_eq`
    * `Word.and32_sign`, `Word.xor32_masked`
    * `Word.wrapMul32`, `Word.wrapMul32_eq`
    * `Word.lowHalf`, `Word.lowHalf_eq`
    * `Word.shiftRight64`, `Word.shiftRight64_eq`
-/

------------------------------------------------------------
-- Bits of Words
------------------------------------------------------------

namespace LatticeSignature

namespace Word

variable {ε : Type}

/- The bits of a word, in two's complement. -/
def bits
    (x : Int) : BitVec 32 :=
  BitVec.ofInt 32 x

/- The bits that are set in both of two words. -/
def and32
    (x y : Int) : Int :=
  (bits x &&& bits y).toInt

/- The bits that are set in one of two words. -/
def xor32
    (x y : Int) : Int :=
  (bits x ^^^ bits y).toInt

/- Move the bits of a word down and repeat its sign above. -/
def shiftRight
    (x : Int)
    (places : Nat) : Int :=
  ((bits x).sshiftRight places).toInt

theorem toInt_bits
    {x : Int}
    (h : Fits32 x) :
    (bits x).toInt = x := by
  unfold Fits32 at h
  rw [bits, BitVec.toInt_ofInt]
  apply Int.bmod_eq_of_le <;> omega

/- A word that is moved down is divided. -/
theorem shiftRight_eq
    {x : Int}
    (h : Fits32 x)
    (places : Nat) :
    shiftRight x places = x / (2 ^ places : Nat) := by
  rw [shiftRight, BitVec.toInt_sshiftRight, toInt_bits h,
    Int.shiftRight_eq_div_pow]

/- The sign of a word masks another word. -/
theorem and32_sign
    {x y : Int}
    (hx : Fits32 x)
    (hy : Fits32 y) :
    and32 (shiftRight x 31) y = if x < 0 then y else 0 := by
  have hSign : shiftRight x 31 = if x < 0 then -1 else 0 := by
    rw [shiftRight_eq hx]
    unfold Fits32 at hx
    split <;> omega
  have hOnes : bits (-1) = BitVec.allOnes 32 := by decide
  rw [and32, hSign]
  split
  · rw [hOnes, BitVec.allOnes_and, toInt_bits hy]
  · have hZero : bits 0 = 0#32 := rfl
    rw [hZero, BitVec.zero_and, BitVec.toInt_zero]

/- The four low bits of a word are a remainder. -/
theorem and32_fifteen
    (x : Int) :
    and32 x 15 = x % 16 := by
  have hLow :
      (bits x &&& bits 15).toNat = (bits x).toNat % 16 := by
    rw [BitVec.toNat_and]
    exact Nat.and_two_pow_sub_one_eq_mod _ 4
  have hBits : ((bits x).toNat : Int) = x % 4294967296 := by
    rw [bits, BitVec.toNat_ofInt]
    omega
  rw [and32, BitVec.toInt_eq_toNat_of_lt (by omega), hLow]
  push_cast
  rw [hBits]
  omega

/- A word is cleared by its own bits, and kept by none. -/
theorem xor32_masked
    {x : Int}
    {condition : Prop}
    [Decidable condition]
    (h : Fits32 x) :
    xor32 x (if condition then x else 0) =
      if condition then 0 else x := by
  unfold xor32
  split
  · rw [BitVec.xor_self]
    rfl
  · have hZero : bits 0 = 0#32 := rfl
    rw [hZero, BitVec.xor_zero, toInt_bits h]

/- A sum that is checked fits. -/
theorem fits_of_check32
    {x y : Int}
    (h : (check32 x : Outcome ε Int) = .ok y) :
    Fits32 y := by
  rcases (check32_eq_ok_iff x y).1 h with ⟨hFits, rfl⟩
  exact hFits

------------------------------------------------------------
-- Long Words
------------------------------------------------------------

/- The bits of a long word, in two's complement. -/
def bits64
    (x : Int) : BitVec 64 :=
  BitVec.ofInt 64 x

/- The word in the low half of a long word. -/
def lowHalf
    (x : Int) : Int :=
  ((bits64 x).setWidth 32).toInt

/- The product of two words, cut to its low half. -/
def wrapMul32
    (x y : Int) : Int :=
  (bits x * bits y).toInt

/- Move the bits of a long word down and repeat its sign. -/
def shiftRight64
    (x : Int)
    (places : Nat) : Int :=
  ((bits64 x).sshiftRight places).toInt

/- The representative of a number that is nearest to zero. -/
theorem wrap32_eq_bmod
    (x : Int) :
    wrap32 x = x.bmod 4294967296 := by
  unfold wrap32
  rw [Int.bmod_def]
  omega

theorem wrapMul32_eq
    (x y : Int) :
    wrapMul32 x y = wrap32 (x * y) := by
  rw [wrapMul32, bits, bits, ← BitVec.ofInt_mul,
    BitVec.toInt_ofInt, wrap32_eq_bmod]

theorem lowHalf_eq
    (x : Int) :
    lowHalf x = wrap32 x := by
  have hBits :
      ((bits64 x).toNat : Int) = x % 18446744073709551616 := by
    rw [bits64, BitVec.toNat_ofInt]
    omega
  have hSame :
      wrap32 (x % 18446744073709551616) = wrap32 x := by
    unfold wrap32
    omega
  rw [lowHalf, BitVec.toInt_setWidth, hBits, ← hSame]
  exact (wrap32_eq_bmod _).symm

/- A long word that is moved down is divided. -/
theorem shiftRight64_eq
    {x : Int}
    (h : Fits64 x)
    (places : Nat) :
    shiftRight64 x places = x / (2 ^ places : Nat) := by
  have hBits : (bits64 x).toInt = x := by
    unfold Fits64 at h
    rw [bits64, BitVec.toInt_ofInt]
    apply Int.bmod_eq_of_le <;> omega
  rw [shiftRight64, BitVec.toInt_sshiftRight, hBits,
    Int.shiftRight_eq_div_pow]

/- A difference that is checked fits. -/
theorem fits_of_check64
    {x y : Int}
    (h : (check64 x : Outcome ε Int) = .ok y) :
    Fits64 y := by
  rcases (check64_eq_ok_iff x y).1 h with ⟨hFits, rfl⟩
  exact hFits

end Word

end LatticeSignature
