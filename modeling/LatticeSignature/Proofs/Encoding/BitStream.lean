import LatticeSignature.Proofs.Access
import LatticeSignature.Proofs.Encoding.Packing
import Mathlib.Tactic.Ring

/-
  The bits of a byte string by their number, and long words
  that gather bits: further bits are put above those of a
  word, and the lowest ones are taken out of it.

  Main declarations:
    * `Bits.getElem?_flatMap_ofNat`
    * `Bytes.bit`, `Bytes.bit_eq`
    * `Packing.lowBits`
    * `Accumulator`, `Accumulator.bits`
    * `Accumulator.push_bits`, `Accumulator.drop_bits`
-/

------------------------------------------------------------
-- Bits by Number
------------------------------------------------------------

namespace LatticeSignature

namespace Bits

theorem getElem?_ofNat
    {width place : Nat}
    (n : Nat)
    (h : place < width) :
    (ofNat width n)[place]? = some (n.testBit place) := by
  induction width generalizing n place with
  | zero => omega
  | succ width ih =>
      rw [ofNat]
      cases place with
      | zero =>
          rw [List.getElem?_cons_zero, Nat.testBit_zero]
          rfl
      | succ place =>
          rw [List.getElem?_cons_succ, ih (n / 2) (by omega),
            Nat.testBit_succ]

/- A bit of a string of fields is one of a field. -/
theorem getElem?_flatMap_ofNat
    {width place : Nat}
    (numbers : List Nat)
    (i : Nat)
    (h : place < width) :
    (numbers.flatMap (ofNat width))[i * width + place]? =
      numbers[i]?.map (·.testBit place) := by
  induction numbers generalizing i with
  | nil => simp
  | cons n rest ih =>
      rw [List.flatMap_cons]
      cases i with
      | zero =>
          rw [Nat.zero_mul, Nat.zero_add,
            List.getElem?_append_left (by simpa using h),
            getElem?_ofNat n h]
          rfl
      | succ i =>
          have hPlace :
              (i + 1) * width + place =
                width + (i * width + place) := by
            ring
          rw [hPlace,
            List.getElem?_append_right (by simp),
            length_ofNat, Nat.add_sub_cancel_left, ih]
          rfl

theorem ofBytes_eq_flatMap
    (s : Bytes) :
    ofBytes s = (s.map UInt8.toNat).flatMap (ofNat 8) := by
  rw [List.flatMap_map]
  rfl

theorem ofBytes_append
    (s t : Bytes) :
    ofBytes (s ++ t) = ofBytes s ++ ofBytes t :=
  List.flatMap_append

end Bits

/- The bit with a number, least significant bits first. -/
def Bytes.bit
    (s : Bytes)
    (n : Nat) : Bool :=
  (s[n / 8]?.getD 0).toNat.testBit (n % 8)

theorem Bytes.bit_eq
    {s : Bytes}
    {n : Nat}
    {b : Bool}
    (h : (Bits.ofBytes s)[n]? = some b) :
    s.bit n = b := by
  have hPlace : n / 8 * 8 + n % 8 = n := by omega
  have hBit :=
    Bits.getElem?_flatMap_ofNat (s.map UInt8.toNat) (n / 8)
      (Nat.mod_lt n (by decide : 0 < 8))
  rw [hPlace, ← Bits.ofBytes_eq_flatMap, h, List.getElem?_map]
    at hBit
  unfold Bytes.bit
  cases hByte : s[n / 8]? with
  | none =>
      rw [hByte] at hBit
      cases hBit
  | some byte =>
      rw [hByte] at hBit
      exact (Option.some.inj hBit).symm

------------------------------------------------------------
-- Numbers of Several Parts
------------------------------------------------------------

namespace Bits

theorem ofNat_mod
    (width n : Nat) :
    ofNat width (n % 2 ^ width) = ofNat width n := by
  have h := ofNat_toNat (ofNat width n)
  rw [length_ofNat, toNat_ofNat] at h
  exact h

/- The low bits of a number, and those above them. -/
theorem ofNat_add
    (low high n : Nat) :
    ofNat (low + high) n =
      ofNat low n ++ ofNat high (n / 2 ^ low) := by
  induction low generalizing n with
  | zero => simp [ofNat]
  | succ low ih =>
      rw [Nat.succ_add, ofNat, ofNat, ih, Nat.div_div_eq_div_mul,
        Nat.pow_succ', List.cons_append]

/- A number that is put above the bits of another one. -/
theorem ofNat_add_mul
    {low a : Nat}
    (high b : Nat)
    (h : a < 2 ^ low) :
    ofNat (low + high) (a + 2 ^ low * b) =
      ofNat low a ++ ofNat high b := by
  have hLow : (a + 2 ^ low * b) % 2 ^ low = a := by
    rw [Nat.add_mul_mod_self_left, Nat.mod_eq_of_lt h]
  have hHigh : (a + 2 ^ low * b) / 2 ^ low = b := by
    rw [Nat.add_mul_div_left _ _ (Nat.two_pow_pos low),
      Nat.div_eq_of_lt h, Nat.zero_add]
  rw [ofNat_add, ← ofNat_mod low, hLow, hHigh]

end Bits

------------------------------------------------------------
-- Low Bits of a Word
------------------------------------------------------------

/- A width below that of a word is a distance for shifts. -/
theorem Word.toNat_shift
    {width : Nat}
    (h : width < 64) :
    (UInt64.ofNat width).toNat % 64 = width := by
  have hWide : width < 2 ^ 64 := by omega
  rw [UInt64.toNat_ofNat', Nat.mod_eq_of_lt hWide,
    Nat.mod_eq_of_lt h]

namespace Packing

/- A long word whose `width` low bits are set. -/
def mask
    (width : Nat) : UInt64 :=
  (1 <<< UInt64.ofNat width) - 1

theorem toNat_and_mask
    {width : Nat}
    (x : UInt64)
    (h : width < 64) :
    (x &&& mask width).toNat = x.toNat % 2 ^ width := by
  have hPow : 2 ^ width < 2 ^ 64 :=
    Nat.pow_lt_pow_right (by decide) h
  have hTop :
      ((1 : UInt64) <<< UInt64.ofNat width).toNat = 2 ^ width := by
    rw [UInt64.toNat_shiftLeft, Word.toNat_shift h]
    change 1 <<< width % 2 ^ 64 = _
    rw [Nat.shiftLeft_eq, Nat.one_mul, Nat.mod_eq_of_lt hPow]
  have hOne : (1 : UInt64) ≤ 1 <<< UInt64.ofNat width := by
    rw [UInt64.le_iff_toNat_le, hTop]
    exact Nat.one_le_two_pow
  rw [UInt64.toNat_and, mask, UInt64.toNat_sub_of_le _ _ hOne,
    hTop]
  exact Nat.and_two_pow_sub_one_eq_mod x.toNat width

/- A field is made of low bits of a word. -/
theorem field_eq_mod
    {width : Nat}
    (c : Int)
    (h : width ≤ 32) :
    field width c = (c % 2 ^ 32).toNat % 2 ^ width := by
  have hDvd : (2 : Int) ^ width ∣ 2 ^ 32 := pow_dvd_pow 2 h
  have hPos : (2 : Int) ^ width ≠ 0 := by positivity
  rw [field, ← Int.emod_emod_of_dvd c hDvd]
  have hWord : (2 : Int) ^ 32 ≠ 0 := by decide
  zify
  rw [Int.toNat_of_nonneg (Int.emod_nonneg _ hPos),
    Int.toNat_of_nonneg (Int.emod_nonneg _ hWord)]

/- The low bits of a word, as a long word. -/
def lowBits
    (width : Nat)
    (c : Int) : UInt64 :=
  UInt64.ofNat (c % 2 ^ 32).toNat &&& mask width

theorem toNat_lowBits
    {width : Nat}
    (c : Int)
    (h : width ≤ 32) :
    (lowBits width c).toNat = field width c := by
  have hUpper : c % 2 ^ 32 < 2 ^ 32 :=
    Int.emod_lt_of_pos c (by decide)
  have hWord : (c % 2 ^ 32).toNat < 2 ^ 64 := by omega
  rw [lowBits, toNat_and_mask _ (by omega), UInt64.toNat_ofNat',
    Nat.mod_eq_of_lt hWord, field_eq_mod c h]

/- The bits of a field are those of the two's complement. -/
theorem testBit_field
    {width place : Nat}
    (c : Int)
    (hWidth : width ≤ 32)
    (hPlace : place < width) :
    (field width c).testBit place =
      (BitVec.ofInt 32 c).getLsbD place := by
  rw [field_eq_mod c hWidth, Nat.testBit_mod_two_pow,
    ← BitVec.testBit_toNat, BitVec.toNat_ofInt,
    decide_eq_true hPlace, Bool.true_and]
  rfl

end Packing

------------------------------------------------------------
-- Accumulators
------------------------------------------------------------

/- A number of bits in a long word. -/
structure Accumulator where
  word : UInt64
  count : Nat

namespace Accumulator

/- No bits. -/
def empty : Accumulator :=
  ⟨0, 0⟩

/- The bits of the word. -/
def bits
    (a : Accumulator) : Bits :=
  Bits.ofNat a.count a.word.toNat

/- No other bits of the word are set. -/
def Clear
    (a : Accumulator) : Prop :=
  a.word.toNat < 2 ^ a.count

/- Put further bits above those of the word. -/
def push
    (width : Nat)
    (x : UInt64)
    (a : Accumulator) : Accumulator :=
  ⟨a.word ||| x <<< UInt64.ofNat a.count, a.count + width⟩

/- Take the lowest bits away. -/
def drop
    (width : Nat)
    (a : Accumulator) : Accumulator :=
  ⟨a.word >>> UInt64.ofNat width, a.count - width⟩

theorem clear_empty :
    empty.Clear :=
  Nat.zero_lt_one

theorem toNat_push
    {a : Accumulator}
    {width : Nat}
    {x : UInt64}
    (hClear : a.Clear)
    (hx : x.toNat < 2 ^ width)
    (hWidth : 0 < width)
    (hRoom : a.count + width ≤ 64) :
    (a.push width x).word.toNat =
      a.word.toNat + 2 ^ a.count * x.toNat := by
  have hShift : a.count < 64 := by omega
  have hFits : 2 ^ a.count * x.toNat < 2 ^ 64 := by
    calc
      2 ^ a.count * x.toNat
        < 2 ^ a.count * 2 ^ width :=
          Nat.mul_lt_mul_of_pos_left hx (Nat.two_pow_pos _)
      _ = 2 ^ (a.count + width) := (Nat.pow_add 2 _ _).symm
      _ ≤ 2 ^ 64 := Nat.pow_le_pow_right (by decide) hRoom
  rw [push, UInt64.toNat_or, UInt64.toNat_shiftLeft,
    Word.toNat_shift hShift, Nat.shiftLeft_eq, Nat.mul_comm,
    Nat.mod_eq_of_lt hFits, Nat.or_comm,
    ← Nat.two_pow_add_eq_or_of_lt hClear, Nat.add_comm]

/- The bits that are put into a word follow those of it. -/
theorem push_bits
    {a : Accumulator}
    {width : Nat}
    {x : UInt64}
    (hClear : a.Clear)
    (hx : x.toNat < 2 ^ width)
    (hWidth : 0 < width)
    (hRoom : a.count + width ≤ 64) :
    (a.push width x).Clear
      ∧ (a.push width x).bits =
        a.bits ++ Bits.ofNat width x.toNat := by
  have hWord := toNat_push hClear hx hWidth hRoom
  constructor
  · unfold Clear at *
    rw [hWord]
    change _ < 2 ^ (a.count + width)
    rw [Nat.pow_add]
    calc
      a.word.toNat + 2 ^ a.count * x.toNat
        < 2 ^ a.count + 2 ^ a.count * x.toNat :=
          Nat.add_lt_add_right hClear _
      _ = 2 ^ a.count * (x.toNat + 1) := by ring
      _ ≤ 2 ^ a.count * 2 ^ width := Nat.mul_le_mul_left _ hx
  · rw [bits, hWord]
    exact Bits.ofNat_add_mul width x.toNat hClear

theorem toNat_drop
    (a : Accumulator)
    {width : Nat}
    (h : width < 64) :
    (a.drop width).word.toNat = a.word.toNat / 2 ^ width := by
  rw [drop, UInt64.toNat_shiftRight, Word.toNat_shift h,
    Nat.shiftRight_eq_div_pow]

/- The bits of a word are those below and those left. -/
theorem drop_bits
    {a : Accumulator}
    {width : Nat}
    (hClear : a.Clear)
    (hCount : width ≤ a.count)
    (hWidth : width < 64) :
    (a.drop width).Clear
      ∧ a.bits =
        Bits.ofNat width a.word.toNat ++ (a.drop width).bits := by
  have hWord := toNat_drop a hWidth
  have hParts : width + (a.count - width) = a.count :=
    Nat.add_sub_cancel' hCount
  constructor
  · unfold Clear at *
    rw [hWord, Nat.div_lt_iff_lt_mul (Nat.two_pow_pos width)]
    change _ < 2 ^ (a.count - width) * 2 ^ width
    rw [← Nat.pow_add, Nat.sub_add_cancel hCount]
    exact hClear
  · unfold bits
    rw [hWord]
    change _ = _ ++ Bits.ofNat (a.count - width) _
    rw [← Bits.ofNat_add, hParts]

end Accumulator

end LatticeSignature
