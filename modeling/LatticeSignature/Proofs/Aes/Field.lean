import LatticeSignature.Aes.Substitution

/-
  The field of 256 elements.  Every element is a sum of
  doubles of one, so that laws which hold of one and survive
  doubling and addition hold of all elements.  Taking the
  inverse twice changes nothing, and the substitution of
  bytes loses nothing.

  Main declarations:
    * `Aes.double_xor`, `Aes.byte_induction`
    * `Aes.multiply_comm`, `Aes.multiply_assoc`
    * `Aes.power_multiply`, `Aes.power_xor`
    * `Aes.power_order`, `Aes.inverse_inverse`
    * `Aes.substitute_injective`
-/

------------------------------------------------------------
-- Doubling
------------------------------------------------------------

namespace LatticeSignature

open scoped Powers

namespace Aes

/- A fact about all bytes can be tested number by number. -/
theorem forall_byte
    {P : UInt8 → Prop}
    (h : ∀ n < 256, P (UInt8.ofNat n))
    (a : UInt8) :
    P a := by
  have hByte := h a.toNat a.toNat_lt
  rw [UInt8.ofNat_toNat] at hByte
  exact hByte

/- The highest bit of a sum. -/
theorem xor_lt_iff
    (a b : UInt8) :
    a ^^^ b < 0x80 ↔ (a < 0x80 ↔ b < 0x80) := by
  have hTop :
      ∀ c : UInt8, c < 0x80 ↔ c.toBitVec.msb = false := by
    intro c
    rw [BitVec.msb_eq_decide, decide_eq_false_iff_not, Nat.not_le]
    exact UInt8.lt_iff_toNat_lt
  rw [hTop, hTop, hTop, UInt8.toBitVec_xor, BitVec.msb_xor]
  cases a.toBitVec.msb <;> cases b.toBitVec.msb <;> decide

/- What is added where the highest bit is shifted out. -/
def carry
    (a : UInt8) : UInt8 :=
  if a < 0x80 then 0 else 0x1B

/- Doubling moves the bits up and brings back the carry. -/
theorem double_eq
    (a : UInt8) :
    double a = a <<< 1 ^^^ carry a := by
  unfold double carry
  split
  · rw [UInt8.xor_zero]
  · rfl

/- Carries add up without a carry of their own. -/
theorem carry_xor
    (a b : UInt8) :
    carry (a ^^^ b) = carry a ^^^ carry b := by
  have hTop := xor_lt_iff a b
  unfold carry
  by_cases ha : a < 0x80 <;> by_cases hb : b < 0x80 <;>
    simp [hTop, ha, hb]

/- Doubling is additive. -/
theorem double_xor
    (a b : UInt8) :
    double (a ^^^ b) = double a ^^^ double b := by
  rw [double_eq, double_eq, double_eq, UInt8.shiftLeft_xor,
    carry_xor]
  ac_rfl

/- A byte is twice its upper bits and its lowest bit. -/
theorem double_shiftRight_xor
    (a : UInt8) :
    double (a >>> 1) ^^^ (a &&& 1) = a := by
  revert a
  apply forall_byte
  decide +kernel

/- The low bit of a byte. -/
theorem and_one_eq
    (a : UInt8) :
    a &&& 1 = 0 ∨ a &&& 1 = 1 := by
  revert a
  apply forall_byte
  decide +kernel

/- Every element is a sum of doubles of one. -/
theorem byte_induction
    {P : UInt8 → Prop}
    (zero : P 0)
    (one : P 1)
    (twice : ∀ a, P a → P (double a))
    (add : ∀ a b, P a → P b → P (a ^^^ b))
    (a : UInt8) :
    P a := by
  induction hSize : a.toNat using Nat.strongRecOn
    generalizing a with
  | _ size ih =>
      by_cases hZero : a = 0
      · rw [hZero]
        exact zero
      · have hPos : 0 < a.toNat := by
          apply Nat.pos_of_ne_zero
          exact fun h => hZero (UInt8.toNat_inj.1 h)
        have hHalf : (a >>> 1).toNat < size := by
          rw [UInt8.toNat_shiftRight, ← hSize]
          exact Nat.div_lt_self hPos (by decide)
        have hLow : P (a &&& 1) := by
          rcases and_one_eq a with h | h <;> rw [h]
          · exact zero
          · exact one
        rw [← double_shiftRight_xor a]
        exact add _ _ (twice _ (ih _ hHalf _ rfl)) hLow

------------------------------------------------------------
-- Products
------------------------------------------------------------

/- The first factor may be doubled before or after. -/
theorem multiplyBits_double
    (bits : Nat)
    (a b : UInt8) :
    multiplyBits bits (double a) b =
      double (multiplyBits bits a b) := by
  induction bits generalizing a b with
  | zero => rfl
  | succ bits ih =>
      rw [multiplyBits, multiplyBits, ih, double_xor]
      split <;> rfl

/- Multiplication distributes over sums of the first factor. -/
theorem multiplyBits_xor_left
    (bits : Nat)
    (a a' b : UInt8) :
    multiplyBits bits (a ^^^ a') b =
      multiplyBits bits a b ^^^ multiplyBits bits a' b := by
  induction bits generalizing a a' b with
  | zero => exact UInt8.xor_self.symm
  | succ bits ih =>
      rw [multiplyBits, multiplyBits, multiplyBits, double_xor, ih]
      split
      · ac_rfl
      · simp only [UInt8.zero_xor]

/- The lowest bit of a sum. -/
theorem xor_and_one
    (b b' : UInt8) :
    (b ^^^ b') &&& 1 = (b &&& 1) ^^^ (b' &&& 1) := by
  apply UInt8.toBitVec_inj.1
  simp only [UInt8.toBitVec_and, UInt8.toBitVec_xor]
  apply BitVec.eq_of_getLsbD_eq
  intro i _
  simp only [BitVec.getLsbD_and, BitVec.getLsbD_xor,
    Bool.and_xor_distrib_right]

/- The summands for the lowest bits. -/
theorem ite_xor_and_one
    (a b b' : UInt8) :
    (if (b ^^^ b') &&& 1 = 1 then a else 0) =
      (if b &&& 1 = 1 then a else 0)
        ^^^ (if b' &&& 1 = 1 then a else 0) := by
  rw [xor_and_one]
  rcases and_one_eq b with h | h <;>
    rcases and_one_eq b' with h' | h' <;>
    simp [h, h']

/- It distributes over sums of the second factor, bit by bit. -/
theorem multiplyBits_xor_right
    (bits : Nat)
    (a b b' : UInt8) :
    multiplyBits bits a (b ^^^ b') =
      multiplyBits bits a b ^^^ multiplyBits bits a b' := by
  induction bits generalizing a b b' with
  | zero => exact UInt8.xor_self.symm
  | succ bits ih =>
      rw [multiplyBits, multiplyBits, multiplyBits,
        UInt8.shiftRight_xor, ih, ite_xor_and_one]
      ac_rfl

/- Products are additive in each factor. -/
theorem multiply_xor_left
    (a a' b : UInt8) :
    multiply (a ^^^ a') b = multiply a b ^^^ multiply a' b :=
  multiplyBits_xor_left 8 a a' b

/- Sums of the second factor, for all eight bits. -/
theorem multiply_xor_right
    (a b b' : UInt8) :
    multiply a (b ^^^ b') = multiply a b ^^^ multiply a b' :=
  multiplyBits_xor_right 8 a b b'

/- A double may be taken out of the first factor. -/
theorem multiply_double_left
    (a b : UInt8) :
    multiply (double a) b = double (multiply a b) :=
  multiplyBits_double 8 a b

/- Every bit adds zero. -/
theorem multiply_zero_left
    (b : UInt8) :
    multiply 0 b = 0 := by
  have hSame := multiply_xor_left 0 0 b
  rw [UInt8.xor_self, UInt8.xor_self] at hSame
  exact hSame

/- No bit of the second factor is set. -/
theorem multiply_zero_right
    (a : UInt8) :
    multiply a 0 = 0 := by
  have hSame := multiply_xor_right a 0 0
  rw [UInt8.xor_self, UInt8.xor_self] at hSame
  exact hSame

/- The bits of the second factor are added up again. -/
theorem multiply_one_left
    (b : UInt8) :
    multiply 1 b = b := by
  revert b
  apply forall_byte
  decide +kernel

/- Only the low bit of the second factor is set. -/
theorem multiply_one_right
    (a : UInt8) :
    multiply a 1 = a := by
  revert a
  apply forall_byte
  decide +kernel

/- A double may be taken out of the second factor, too. -/
theorem multiply_double_right
    (a b : UInt8) :
    multiply a (double b) = double (multiply a b) := by
  induction a using byte_induction with
  | zero =>
      rw [multiply_zero_left, multiply_zero_left]
      rfl
  | one => rw [multiply_one_left, multiply_one_left]
  | twice a ih =>
      rw [multiply_double_left, multiply_double_left, ih]
  | add a a' ih ih' =>
      rw [multiply_xor_left, multiply_xor_left, double_xor, ih,
        ih']

/- By the bits of the first factor: one, doubles and sums. -/
theorem multiply_comm
    (a b : UInt8) :
    multiply a b = multiply b a := by
  induction a using byte_induction with
  | zero => rw [multiply_zero_left, multiply_zero_right]
  | one => rw [multiply_one_left, multiply_one_right]
  | twice a ih =>
      rw [multiply_double_left, multiply_double_right, ih]
  | add a a' ih ih' =>
      rw [multiply_xor_left, multiply_xor_right, ih, ih']

/- The induction is on the first factor, as before. -/
theorem multiply_assoc
    (a b c : UInt8) :
    multiply (multiply a b) c = multiply a (multiply b c) := by
  induction c using byte_induction with
  | zero =>
      rw [multiply_zero_right, multiply_zero_right,
        multiply_zero_right]
  | one => rw [multiply_one_right, multiply_one_right]
  | twice c ih =>
      rw [multiply_double_right, multiply_double_right,
        multiply_double_right, ih]
  | add c c' ih ih' =>
      rw [multiply_xor_right, multiply_xor_right,
        multiply_xor_right, ih, ih']

------------------------------------------------------------
-- Powers
------------------------------------------------------------

/- Exponents add up in a product of powers. -/
theorem power_add
    (a : UInt8)
    (m n : Nat) :
    power a (m + n) = multiply (power a m) (power a n) := by
  induction m with
  | zero => rw [Nat.zero_add, power, multiply_one_left]
  | succ m ih =>
      rw [Nat.succ_add, power, power, ih, multiply_assoc]

/- Exponents multiply in a power of a power. -/
theorem power_mul
    (a : UInt8)
    (m n : Nat) :
    power a (m * n) = power (power a m) n := by
  induction n with
  | zero => rfl
  | succ n ih =>
      rw [Nat.mul_succ, Nat.add_comm, power_add, ih]
      rfl

/- The power of a product is that of its factors. -/
theorem power_multiply
    (a b : UInt8)
    (n : Nat) :
    power (multiply a b) n =
      multiply (power a n) (power b n) := by
  induction n with
  | zero => exact (multiply_one_left 1).symm
  | succ n ih =>
      rw [power, power, power, ih, multiply_assoc, multiply_assoc,
        ← multiply_assoc b, multiply_comm b, multiply_assoc]

/- A byte is its own first power. -/
theorem power_one
    (a : UInt8) :
    power a 1 = a :=
  multiply_one_right a

/- Powers of sums are sums for exponents that double one. -/
theorem power_xor
    (a b : UInt8)
    (n : Nat) :
    power (a ^^^ b) (2 ^ n) =
      power a (2 ^ n) ^^^ power b (2 ^ n) := by
  induction n with
  | zero => rw [Nat.pow_zero, power_one, power_one, power_one]
  | succ n ih =>
      -- The mixed products are equal and cancel each other.
      rw [Nat.pow_succ, Nat.mul_two, power_add, power_add,
        power_add, ih, multiply_xor_left, multiply_xor_right,
        multiply_xor_right, multiply_comm (power b _) (power a _),
        UInt8.xor_assoc,
        ← UInt8.xor_assoc (multiply (power a _) (power b _)),
        UInt8.xor_self, UInt8.zero_xor]

/- Two is its own 256th power, as every byte is. -/
theorem power_two_order :
    power 2 256 = 2 := by
  decide +kernel

/- Every element is a root of the same polynomial. -/
theorem power_order
    (a : UInt8) :
    power a 256 = a := by
  induction a using byte_induction with
  | zero => exact multiply_zero_left _
  | one =>
      have hOne : ∀ n, power 1 n = 1 := by
        intro n
        induction n with
        | zero => rfl
        | succ n ih => rw [power, ih, multiply_one_left]
      exact hOne 256
  | twice a ih =>
      have hDouble : double a = multiply 2 a := by
        have hOne := multiply_double_left 1 a
        rw [multiply_one_left] at hOne
        exact hOne.symm
      rw [hDouble, power_multiply, ih, power_two_order]
  | add a b ih ih' =>
      have hSum :
          power (a ^^^ b) 256 = power a 256 ^^^ power b 256 :=
        power_xor a b 8
      rw [hSum, ih, ih']

------------------------------------------------------------
-- Substitution
------------------------------------------------------------

/- The inverse of the inverse is the element. -/
theorem inverse_inverse
    (a : UInt8) :
    inverse (inverse a) = a := by
  have hExponent : 254 * 254 = 256 * 252 + 4 := rfl
  unfold inverse
  rw [← power_mul, hExponent, power_add, power_mul, power_order,
    ← power_add, power_order]

/- The bytes that the affine map takes to a byte. -/
def affineInverse
    (b : UInt8) : UInt8 :=
  let c := b ^^^ 0x63
  rotateByte c 1 ^^^ rotateByte c 3 ^^^ rotateByte c 6

/- The affine map of the substitution can be undone. -/
theorem affineInverse_affine
    (a : UInt8) :
    affineInverse (affine a) = a := by
  revert a
  apply forall_byte
  decide +kernel

/- The substitution is the inverse under an affine map. -/
theorem substitute_eq
    (a : UInt8) :
    substitute a = affine (inverse a) := by
  simp [substitute, substitutions]

/- No two bytes are replaced by the same byte. -/
theorem substitute_injective
    {a b : UInt8}
    (h : substitute a = substitute b) :
    a = b := by
  rw [substitute_eq, substitute_eq] at h
  have hInverse := congrArg affineInverse h
  rw [affineInverse_affine, affineInverse_affine] at hInverse
  rw [← inverse_inverse a, hInverse, inverse_inverse]

end Aes

end LatticeSignature
