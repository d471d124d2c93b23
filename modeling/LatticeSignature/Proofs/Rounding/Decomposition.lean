import LatticeSignature.Proofs.Field.Reduction
import LatticeSignature.Rounding.Buckets

/-
  Decompositions of residues into high and low parts, stated
  by division with centred remainders.

  Main declarations:
    * `Rounding.splitPowerOfTwo_returns`
    * `Rounding.Buckets.standardParts`
    * `Rounding.Buckets.InBucket`
    * `Rounding.Buckets.standardParts_eq_of_inBucket`
    * `Rounding.Buckets.split_eq_ok`
    * `Rounding.Buckets.highBits`, `Rounding.Buckets.lowBits`
    * `Rounding.Buckets.bits_eq_of_inBucket`
-/

------------------------------------------------------------
-- Splitting at a Power of Two
------------------------------------------------------------

namespace LatticeSignature

namespace Rounding

open Outcome

variable {ε : Type}

/- The parts of a least representative, and their ranges. -/
theorem splitPowerOfTwo_returns
    {a : Int}
    (hLower : 0 ≤ a)
    (hUpper : a < Field.q) :
    Returns (splitPowerOfTwo a : Outcome ε Parts) fun parts =>
      parts.high * 8192 + parts.low = a
        ∧ 0 ≤ parts.high ∧ parts.high < 1024
        ∧ -4096 < parts.low ∧ parts.low ≤ 4096 := by
  unfold Field.q at hUpper
  let high := (a + 4096 - 1) / 8192
  have hHigh : high = (a + 4096 - 1) / 8192 := rfl
  have hWrap : Word.wrap32 (high * 8192) = high * 8192 := by
    apply Word.wrap32_of_fits
    unfold Word.Fits32
    omega
  refine ⟨⟨high, a - high * 8192⟩, ?_, ?_⟩
  · unfold splitPowerOfTwo
    rw [Word.add32_eq_ok (by unfold Word.Within; omega)]
    rw [ok_bind,
      Word.sub32_eq_ok (by unfold Word.Within; omega), ok_bind]
    change (Word.sub32 a (Word.wrap32 (high * 8192)) >>= _) = _
    rw [hWrap,
      Word.sub32_eq_ok (by unfold Word.Within; omega)]
    rfl
  · dsimp only
    omega

------------------------------------------------------------
-- Standard Decomposition
------------------------------------------------------------

namespace Buckets

/- The remainder of a division by the width, centred at zero. -/
def centred
    (b : Buckets)
    (a : Int) : Int :=
  let r := a % (2 * b.halfWidth)
  if r ≤ b.halfWidth then r else r - 2 * b.halfWidth

/-
  The bucket of a number and its place there.  What would be
  one bucket too many is the first bucket.
-/
def standardParts
    (b : Buckets)
    (a : Int) : Parts :=
  let low := b.centred a
  if a - low = Field.q - 1 then
    ⟨0, low - 1⟩
  else
    ⟨(a - low) / (2 * b.halfWidth), low⟩

/- Division with a centred remainder. -/
theorem exists_centred
    (b : Buckets)
    (a : Int) :
    ∃ n low,
      a = n * (2 * b.halfWidth) + low
        ∧ -b.halfWidth < low ∧ low ≤ b.halfWidth := by
  refine ⟨(a - b.centred a) / (2 * b.halfWidth),
    b.centred a, ?_⟩
  unfold centred
  cases b <;>
  · simp only [halfWidth]
    split_ifs <;> omega

/- Quotient and centred remainder decide the parts. -/
theorem standardParts_eq_ite
    {b : Buckets}
    {a n low : Int}
    (ha : a = n * (2 * b.halfWidth) + low)
    (hLower : -b.halfWidth < low)
    (hUpper : low ≤ b.halfWidth) :
    b.standardParts a =
      if n = b.count then ⟨0, low - 1⟩ else ⟨n, low⟩ := by
  have hLow : b.centred a = low := by
    unfold centred
    cases b <;>
    · simp only [halfWidth] at *
      split_ifs <;> omega
  have hStart : a - low = n * (2 * b.halfWidth) := by
    omega
  have hLast :
      n * (2 * b.halfWidth) = Field.q - 1 ↔ n = b.count := by
    unfold Field.q
    cases b <;>
    · simp only [halfWidth, count]
      omega
  have hWidth : 2 * b.halfWidth ≠ 0 := by
    cases b <;> decide
  unfold standardParts
  simp only [hLow, hStart, hLast, Int.mul_ediv_cancel _ hWidth]

/-
  A place in a bucket.  Only the first bucket has a place at
  its lower end.
-/
def InBucket
    (b : Buckets)
    (high low : Int) : Prop :=
  0 ≤ high ∧ high < b.count ∧ low ≤ b.halfWidth
    ∧ (-b.halfWidth < low ∨ high = 0 ∧ low = -b.halfWidth)

/- No low part is larger than half of a bucket. -/
theorem InBucket.within
    {b : Buckets}
    {high low : Int}
    (h : b.InBucket high low) :
    Word.Within b.halfWidth low := by
  unfold InBucket at h
  unfold Word.Within
  cases b <;>
  · simp only [halfWidth] at *
    omega

/- The integer at a place of a bucket. -/
def place
    (b : Buckets)
    (high low : Int) : Int :=
  high * (2 * b.halfWidth) + low

/- Only places below zero stand for residues near `q`. -/
theorem wrap_of_inBucket
    {b : Buckets}
    {high low a k : Int}
    (hIn : b.InBucket high low)
    (hLower : 0 ≤ a)
    (hUpper : a < Field.q)
    (hPlace : a = b.place high low + Field.q * k) :
    k = 0 ∨ k = 1 ∧ high = 0 ∧ low < 0 := by
  unfold InBucket at hIn
  unfold place at hPlace
  cases b <;>
  · simp only [halfWidth, count, Field.q] at *
    have hSmall : -1 < k := by omega
    have hLarge : k < 2 := by omega
    omega

/- A residue has one place only. -/
theorem standardParts_eq_of_inBucket
    {b : Buckets}
    {high low a k : Int}
    (hIn : b.InBucket high low)
    (hLower : 0 ≤ a)
    (hUpper : a < Field.q)
    (hPlace : a = b.place high low + Field.q * k) :
    b.standardParts a = ⟨high, low⟩ := by
  have hWrap := wrap_of_inBucket hIn hLower hUpper hPlace
  unfold InBucket at hIn
  unfold place at hPlace
  rcases exists_centred b a with ⟨n, rest, ha, hRest⟩
  rw [standardParts_eq_ite ha hRest.1 hRest.2]
  split <;> rw [Parts.mk.injEq] <;> cases b <;>
  · simp only [halfWidth, count, Field.q] at *
    rcases hWrap with rfl | ⟨rfl, rfl, hNegative⟩ <;> omega

/- Every residue has a place. -/
theorem inBucket_standardParts
    (b : Buckets)
    {a : Int}
    (hLower : 0 ≤ a)
    (hUpper : a < Field.q) :
    b.InBucket (b.standardParts a).high (b.standardParts a).low
      ∧ ∃ k,
        a =
          b.place (b.standardParts a).high
              (b.standardParts a).low
            + Field.q * k := by
  rcases exists_centred b a with ⟨n, low, ha, hLow⟩
  rw [standardParts_eq_ite ha hLow.1 hLow.2]
  unfold InBucket place
  split
  · refine ⟨⟨le_refl 0, ?_, ?_, ?_⟩, 1, ?_⟩ <;> cases b <;>
    · simp only [halfWidth, count, Field.q, true_and] at *
      omega
  · refine ⟨⟨?_, ?_, ?_, Or.inl hLow.1⟩, 0, ?_⟩ <;> cases b <;>
    · simp only [halfWidth, count, Field.q] at *
      omega

------------------------------------------------------------
-- Splitting with Shifts
------------------------------------------------------------

/- The scaled reciprocal of the wider buckets is exact. -/
theorem index_sixteen_eq_ok
    {a n low : Int}
    (hLower : 0 ≤ a)
    (hUpper : a < 8380417)
    (ha : a = n * 523776 + low)
    (hLow : -261888 < low ∧ low ≤ 261888) :
    (sixteen.index a : Outcome ε Int) =
      .ok (if n = 16 then 0 else n) := by
  have hCoarse :
      4092 * n - 2045 ≤ (a + 127) / 128
        ∧ (a + 127) / 128 ≤ 4092 * n + 2046 := by
    omega
  have hHigh :
      ((a + 127) / 128 * 1025 + 2097152) / 4194304 = n := by
    omega
  unfold index
  rw [Word.add32_eq_ok (by unfold Word.Within; omega)]
  change
    (Word.mul32 ((a + 127) / 128) 1025 >>= fun scaled =>
      Word.add32 scaled 2097152 >>= fun rounded =>
        .ok (rounded / 4194304 % 16)) = _
  rw [Word.mul32_eq_ok (by unfold Word.Within; omega), ok_bind,
    Word.add32_eq_ok (by unfold Word.Within; omega), ok_bind,
    hHigh]
  refine congrArg Except.ok ?_
  split <;> omega

/- The scaled reciprocal of the other buckets is exact. -/
theorem index_fortyFour_eq_ok
    {a n low : Int}
    (hLower : 0 ≤ a)
    (hUpper : a < 8380417)
    (ha : a = n * 190464 + low)
    (hLow : -95232 < low ∧ low ≤ 95232) :
    (fortyFour.index a : Outcome ε Int) =
      .ok (if n = 44 then 0 else n) := by
  have hCoarse :
      1488 * n - 743 ≤ (a + 127) / 128
        ∧ (a + 127) / 128 ≤ 1488 * n + 744 := by
    omega
  have hHigh :
      ((a + 127) / 128 * 11275 + 8388608) / 16777216 = n := by
    omega
  unfold index
  rw [Word.add32_eq_ok (by unfold Word.Within; omega)]
  change
    (Word.mul32 ((a + 127) / 128) 11275 >>= fun scaled =>
      Word.add32 scaled 8388608 >>= fun rounded =>
        .ok
          (if rounded / 16777216 > 43 then
            0
          else
            rounded / 16777216)) = _
  rw [Word.mul32_eq_ok (by unfold Word.Within; omega), ok_bind,
    Word.add32_eq_ok (by unfold Word.Within; omega), ok_bind,
    hHigh]
  refine congrArg Except.ok ?_
  split <;> split <;> omega

/- The bucket number is found by multiplication and shifts. -/
theorem index_eq_ok
    (b : Buckets)
    {a : Int}
    (hLower : 0 ≤ a)
    (hUpper : a < Field.q) :
    (b.index a : Outcome ε Int) =
      .ok (b.standardParts a).high := by
  rcases exists_centred b a with ⟨n, low, ha, hLow⟩
  rw [standardParts_eq_ite ha hLow.1 hLow.2,
    apply_ite Parts.high]
  unfold Field.q at hUpper
  cases b with
  | sixteen => exact index_sixteen_eq_ok hLower hUpper ha hLow
  | fortyFour =>
      exact index_fortyFour_eq_ok hLower hUpper ha hLow

/- The bucket is found by multiplication and shifts. -/
theorem split_eq_ok
    (b : Buckets)
    {a : Int}
    (hLower : 0 ≤ a)
    (hUpper : a < Field.q) :
    (b.split a : Outcome ε Parts) = .ok (b.standardParts a) := by
  rcases inBucket_standardParts b hLower hUpper with
    ⟨hIn, k, hPlace⟩
  unfold split
  rw [index_eq_ok b hLower hUpper]
  generalize b.standardParts a = parts at *
  rcases parts with ⟨high, low⟩
  dsimp only at hIn hPlace
  have hWrap := wrap_of_inBucket hIn hLower hUpper hPlace
  rcases hIn with ⟨hHighLow, hHigh, hLow, hLowLow⟩
  unfold place at hPlace
  have hCount : b.count ≤ 44 := by
    cases b <;> decide
  have hStart :
      high * 2 * b.halfWidth = high * (2 * b.halfWidth) := by
    ring
  have hBound : b.halfWidth ≤ 261888 := by
    cases b <;> decide
  have hPositive : 0 < b.halfWidth := by
    cases b <;> decide
  rw [ok_bind]
  dsimp only
  rw [Word.mul32_eq_ok (by unfold Word.Within; omega),
    ok_bind,
    Word.mul32_eq_ok
      (by unfold Word.Within Field.q at *; omega),
    ok_bind,
    Word.sub32_eq_ok
      (by unfold Word.Within Field.q at *; omega),
    ok_bind,
    Word.sub32_eq_ok
      (by unfold Word.Within Field.q at *; omega),
    ok_bind]
  have hAbove :
      (if (Field.q - 1) / 2 - (a - high * 2 * b.halfWidth) < 0
        then Field.q else 0) = Field.q * k := by
    unfold Field.q at *
    rcases hWrap with rfl | ⟨rfl, rfl, hNegative⟩ <;>
    · split <;> omega
  have hLast :
      a - high * 2 * b.halfWidth - Field.q * k = low := by
    omega
  rw [hAbove,
    Word.sub32_eq_ok (by unfold Word.Within; omega), hLast]
  rfl

------------------------------------------------------------
-- Parts of Residues
------------------------------------------------------------

/- The bucket of a residue. -/
def highBits
    (b : Buckets)
    (x : Residue) : Int :=
  (b.standardParts x.val).high

/- The place of a residue in its bucket. -/
def lowBits
    (b : Buckets)
    (x : Residue) : Int :=
  (b.standardParts x.val).low

/- Residues have representatives below the modulus. -/
theorem val_lt_q
    (x : Residue) :
    (x.val : Int) < Field.q :=
  Int.ofNat_lt.2 (ZMod.val_lt x)

/- Every residue is in its bucket. -/
theorem inBucket_bits
    (b : Buckets)
    (x : Residue) :
    b.InBucket (b.highBits x) (b.lowBits x) :=
  (inBucket_standardParts b (Int.natCast_nonneg _)
    (val_lt_q x)).1

/- A residue is where its parts say. -/
theorem intCast_place_bits
    (b : Buckets)
    (x : Residue) :
    (b.place (b.highBits x) (b.lowBits x) : Residue) = x := by
  rcases (inBucket_standardParts b (Int.natCast_nonneg _)
      (val_lt_q x)).2 with
    ⟨k, hPlace⟩
  have hCast :=
    Residue.intCast_add_q_mul
      (b.place (b.highBits x) (b.lowBits x)) k
  rw [← hCast]
  change
    ((b.place (b.standardParts x.val).high
      (b.standardParts x.val).low + Field.q * k : Int) : Residue)
      = x
  rw [← hPlace, Int.cast_natCast, ZMod.natCast_zmod_val]

/- The parts of a residue are found at any of its places. -/
theorem bits_eq_of_inBucket
    {b : Buckets}
    {high low : Int}
    {x : Residue}
    (hIn : b.InBucket high low)
    (hPlace : (b.place high low : Residue) = x) :
    b.highBits x = high ∧ b.lowBits x = low := by
  have hSame :
      ((x.val : Int) : Residue) = (b.place high low : Residue) := by
    rw [hPlace, Int.cast_natCast, ZMod.natCast_zmod_val]
  rcases Residue.exists_eq_add_of_intCast_eq hSame with ⟨k, hk⟩
  have hParts :=
    standardParts_eq_of_inBucket hIn (Int.natCast_nonneg _)
      (val_lt_q x) hk
  unfold highBits lowBits
  rw [hParts]
  exact ⟨rfl, rfl⟩

end Buckets

end Rounding

end LatticeSignature
