import LatticeSignature.Field.Reduction
import LatticeSignature.Proofs.Field.Roots
import LatticeSignature.Proofs.Outcome
import Mathlib.Tactic.Linarith

/-
  What the reductions of words return, and in which range.
  Residues are read off by casting a word.

  Main declarations:
    * `Word.add32_eq_ok`, `Word.sub32_eq_ok`, `Word.mul32_eq_ok`
    * `Word.Within`
    * `Field.montgomeryReduce_returns`
    * `Field.montgomeryMul_returns`
    * `Field.toMontgomery_returns`
    * `Field.montgomeryMul_inverseScale_returns`
    * `Field.reduce_eq_ok`, `Field.reduce_returns`
    * `Field.canonical_eq_ok`
    * `Field.intCast_liftNegative`
-/

------------------------------------------------------------
-- Checked Words
------------------------------------------------------------

namespace LatticeSignature

namespace Word

variable {ε : Type}

/- A number of at most the given magnitude. -/
def Within
    (bound x : Int) : Prop :=
  -bound ≤ x ∧ x ≤ bound

instance
    (bound x : Int) :
    Decidable (Within bound x) := by
  unfold Within
  infer_instance

/- A magnitude may be estimated more coarsely. -/
theorem Within.mono
    {bound bound' x : Int}
    (h : Within bound x)
    (hLe : bound ≤ bound') :
    Within bound' x := by
  unfold Within at *
  omega

/- A number of at most the greatest magnitude is a word. -/
theorem Within.fits32
    {x : Int}
    (h : Within 2147483647 x) :
    Fits32 x := by
  unfold Within at h
  unfold Fits32
  omega

/- The absolute value below a bound. -/
theorem abs_lt_iff_within
    {bound x : Int} :
    |x| < bound ↔ Within (bound - 1) x := by
  rw [abs_lt]
  unfold Within
  omega

/- A word is kept by its check. -/
theorem check32_eq_ok
    {x : Int}
    (hFits : Fits32 x) :
    (check32 x : Outcome ε Int) = .ok x :=
  (check32_eq_ok_iff x x).2 ⟨hFits, rfl⟩

/- A long word is kept, too. -/
theorem check64_eq_ok
    {x : Int}
    (hFits : Fits64 x) :
    (check64 x : Outcome ε Int) = .ok x :=
  (check64_eq_ok_iff x x).2 ⟨hFits, rfl⟩

/-
  Checked arithmetic is exact as long as the result is a word.
-/
theorem add32_eq_ok
    {x y : Int}
    (h : Within 2147483647 (x + y)) :
    (add32 x y : Outcome ε Int) = .ok (x + y) :=
  check32_eq_ok h.fits32

theorem sub32_eq_ok
    {x y : Int}
    (h : Within 2147483647 (x - y)) :
    (sub32 x y : Outcome ε Int) = .ok (x - y) :=
  check32_eq_ok h.fits32

theorem mul32_eq_ok
    {x y : Int}
    (h : Within 2147483647 (x * y)) :
    (mul32 x y : Outcome ε Int) = .ok (x * y) :=
  check32_eq_ok h.fits32

/- The magnitude of every word but the least one. -/
theorem magnitude_of_within
    {x : Int}
    (h : Within 2147483647 x) :
    magnitude x = if x < 0 then -x else x := by
  apply wrap32_of_fits
  unfold Fits32
  unfold Within at h
  split <;> omega

/- Magnitudes multiply. -/
theorem within_mul
    {a b x y : Int}
    (hx : Within a x)
    (hy : Within b y) :
    Within (a * b) (x * y) := by
  rcases hx with ⟨hxLow, hxHigh⟩
  rcases hy with ⟨hyLow, hyHigh⟩
  constructor <;> nlinarith

end Word

------------------------------------------------------------
-- Montgomery Reduction
------------------------------------------------------------

namespace Field

variable {ε : Type}

open Word Outcome

/- The multiple of `q` has the 32 low bits of the argument. -/
theorem multiple_modEq
    (a : Int) :
    wrap32 (wrap32 a * inverseOfModulus) * q
      ≡ a [ZMOD 4294967296] := by
  have hWrap : ∀ x, wrap32 x ≡ x [ZMOD 4294967296] :=
    wrap32_emod
  have hInverse :
      inverseOfModulus * q ≡ 1 [ZMOD 4294967296] :=
    inverseOfModulus_mul_q
  calc
    wrap32 (wrap32 a * inverseOfModulus) * q
      ≡ wrap32 a * inverseOfModulus * q [ZMOD 4294967296] :=
        (hWrap _).mul_right q
    _ = wrap32 a * (inverseOfModulus * q) :=
        mul_assoc _ _ _
    _ ≡ a * 1 [ZMOD 4294967296] :=
        (hWrap a).mul hInverse
    _ = a :=
        mul_one a

/-
  The reduction takes away a multiple of `q` by a word, and
  divides what is left exactly.
-/
theorem montgomeryReduce_returns
    {a : Int}
    (hLower : -(2147483648 * q) ≤ a)
    (hUpper : a ≤ 2147483648 * q) :
    Returns (montgomeryReduce a : Outcome ε Int) fun r =>
      ∃ t, -2147483648 ≤ t ∧ t ≤ 2147483647
        ∧ 4294967296 * r = a - t * q := by
  let t := wrap32 (wrap32 a * inverseOfModulus)
  have ht : Fits32 t := wrap32_fits _
  unfold Fits32 at ht
  unfold q at hLower hUpper
  have hExact : (a - t * q) % 4294967296 = 0 :=
    Int.emod_eq_zero_of_dvd (multiple_modEq a).dvd
  have hMultiple : (mul64 t q : Outcome ε Int) = .ok (t * q) := by
    apply check64_eq_ok
    unfold Fits64 q
    omega
  have hRest :
      (sub64 a (t * q) : Outcome ε Int) = .ok (a - t * q) := by
    apply check64_eq_ok
    unfold Fits64 q
    omega
  have hFits32 : Fits32 ((a - t * q) / 4294967296) := by
    unfold Fits32 q
    omega
  refine ⟨(a - t * q) / 4294967296, ?_, t, ht.1, ht.2, ?_⟩
  · dsimp only [montgomeryReduce]
    rw [hMultiple, ok_bind, hRest, ok_bind]
    exact congrArg Except.ok (wrap32_of_fits _ hFits32)
  · omega

/- A product that the reduction accepts fits its long word. -/
theorem montgomeryMul_eq_reduce
    {x y bound : Int}
    (h : Within bound (x * y))
    (hBound : bound < 17996808470921216) :
    (montgomeryMul x y : Outcome ε Int) =
      montgomeryReduce (x * y) := by
  have hProduct : (mul64 x y : Outcome ε Int) = .ok (x * y) := by
    apply check64_eq_ok
    unfold Fits64
    unfold Within at h
    omega
  rw [montgomeryMul, hProduct, ok_bind]

/- A product of words is divided by the Montgomery factor. -/
theorem montgomeryMul_returns
    {x y bound : Int}
    (h : Within bound (x * y))
    (hBound : bound < 17996808470921216) :
    Returns (montgomeryMul x y : Outcome ε Int) fun r =>
      Within (q - 1) r
        ∧ (r : Residue) = Residue.factorInverse * (x * y) := by
  have hLower : -(2147483648 * q) ≤ x * y := by
    unfold Within at h
    unfold q
    omega
  have hUpper : x * y ≤ 2147483648 * q := by
    unfold Within at h
    unfold q
    omega
  rw [montgomeryMul_eq_reduce h hBound]
  refine (montgomeryReduce_returns hLower hUpper).mono ?_
  rintro r ⟨t, htLow, htHigh, hExact⟩
  constructor
  · unfold Within q at *
    omega
  · have hResidue :
        Residue.factor * (r : Residue) = x * y := by
      have hSum : 4294967296 * r = x * y + q * (-t) := by
        rw [hExact]
        ring
      have hCast := Residue.intCast_add_q_mul (x * y) (-t)
      rw [← hSum, Int.cast_mul, Int.cast_mul] at hCast
      exact hCast
    rw [← hResidue, ← mul_assoc,
      Residue.factorInverse_mul_factor, one_mul]

/- A word is multiplied by the Montgomery factor. -/
theorem toMontgomery_returns
    {a : Int}
    (hFits : Fits32 a) :
    Returns (toMontgomery a : Outcome ε Int) fun r =>
      Within (q - 1) r ∧ Congruent r (montgomeryOne * a) := by
  have hProduct :
      Within 5080841084469248 (a * montgomerySquare) := by
    unfold Fits32 at hFits
    unfold Within montgomerySquare
    omega
  refine (montgomeryMul_returns hProduct (by decide)).mono ?_
  rintro r ⟨hRange, hResidue⟩
  refine ⟨hRange, (Residue.intCast_eq_iff _ _).1 ?_⟩
  -- One of the two factors of the square is divided out.
  calc
    (r : Residue)
      = Residue.factorInverse * (a * montgomerySquare) :=
        hResidue
    _ = Residue.factorInverse * Residue.factor
          * (Residue.factor * a) := by
        rw [Residue.intCast_montgomerySquare]
        ring
    _ = (montgomeryOne * a : Int) := by
        rw [Residue.factorInverse_mul_factor, one_mul,
          Int.cast_mul, Residue.intCast_montgomeryOne]

/-
  The product with the scale of the inverse transform is
  smaller than products are in general.
-/
theorem montgomeryMul_inverseScale_returns
    {x : Int}
    (h : Within 2147483647 x) :
    Returns (montgomeryMul inverseScale x : Outcome ε Int)
      fun r =>
        Within 4211198 r
          ∧ (r : Residue) =
            Residue.factorInverse * (inverseScale * x) := by
  have hProduct : Within 90147068533766 (inverseScale * x) := by
    unfold Within inverseScale at *
    omega
  have hResidue :=
    montgomeryMul_returns (ε := ε) hProduct (by omega)
  have hRange :=
    montgomeryReduce_returns (ε := ε) (a := inverseScale * x)
      (by unfold Within at hProduct; unfold q; omega)
      (by unfold Within at hProduct; unfold q; omega)
  rcases hResidue with ⟨r, hOk, hQ, hCast⟩
  have hReduce := hOk
  rw [montgomeryMul_eq_reduce hProduct (by omega)] at hReduce
  rcases hRange.of_eq_ok hReduce with ⟨t, htLow, htHigh, hExact⟩
  refine ⟨r, hOk, ?_, hCast⟩
  unfold Within q at *
  omega

------------------------------------------------------------
-- Small Representatives
------------------------------------------------------------

/-
  Of the steps of the reduction only the first one, the sum
  with half of the unit, leaves its word for some argument.
-/
theorem reduce_eq_ok
    {a : Int}
    (hFits : Fits32 a)
    (hUpper : a ≤ 2143289343) :
    (reduce a : Outcome ε Int) =
      .ok (a - (a + 4194304) / 8388608 * q) := by
  unfold Fits32 at hFits
  have hUp : Fits32 (a + 4194304) := by
    unfold Fits32
    omega
  have hTimes : Fits32 ((a + 4194304) / 8388608 * q) := by
    unfold Fits32 q
    omega
  have hDown :
      Fits32 (a - (a + 4194304) / 8388608 * q) := by
    unfold Fits32 q
    omega
  unfold reduce
  rw [add32, check32_eq_ok hUp, ok_bind, mul32,
    check32_eq_ok hTimes, ok_bind]
  exact check32_eq_ok hDown

/- The reduction keeps the residue and leaves a small number. -/
theorem reduce_returns
    {a : Int}
    (h : Within 2143289343 a) :
    Returns (reduce a : Outcome ε Int) fun r =>
      Within 6283009 r
        ∧ ∃ t, Within 256 t ∧ r = a - t * q := by
  have hFits : Fits32 a := (h.mono (by omega)).fits32
  rw [reduce_eq_ok hFits h.2]
  refine returns_ok ⟨?_, (a + 4194304) / 8388608, ?_, rfl⟩
  · unfold Within q at *
    omega
  · unfold Within at *
    omega

/- A small number is its own reduction. -/
theorem reduce_eq_self
    {a : Int}
    (h : Within 4194303 a) :
    (reduce a : Outcome ε Int) = .ok a := by
  have hFits : Fits32 a := (h.mono (by omega)).fits32
  unfold Within at h
  have hZero : (a + 4194304) / 8388608 = 0 := by
    omega
  rw [reduce_eq_ok hFits (by omega), hZero, zero_mul, sub_zero]

/- The residue is kept. -/
theorem intCast_liftNegative
    (a : Int) :
    (liftNegative a : Residue) = a := by
  unfold liftNegative
  split
  · have h := Residue.intCast_add_q_mul a 1
    rwa [mul_one] at h
  · rfl

/- A number above `-q` is lifted to the least representative. -/
theorem liftNegative_range
    {a : Int}
    (h : Within (q - 1) a) :
    0 ≤ liftNegative a ∧ liftNegative a < q := by
  unfold liftNegative
  unfold Within q at *
  split <;> omega

/- The canonical representative of a word is its remainder. -/
theorem canonical_eq_ok
    {a : Int}
    (hFits : Fits32 a)
    (hUpper : a ≤ 2143289343) :
    (canonical a : Outcome ε Int) = .ok (a % q) := by
  have hLift :
      liftNegative (a - (a + 4194304) / 8388608 * q) =
        a % q := by
    unfold Fits32 at hFits
    unfold liftNegative q
    split <;> omega
  rw [canonical, reduce_eq_ok hFits hUpper, ok_bind, hLift]
  rfl

/- A representative in `[0, q)` is the canonical one. -/
theorem val_intCast_of_range
    {a : Int}
    (hLower : 0 ≤ a)
    (hUpper : a < q) :
    ((a : Residue).val : Int) = a := by
  rw [ZMod.val_intCast]
  exact Int.emod_eq_of_lt hLower hUpper

end Field

end LatticeSignature
