import LatticeSignature.ParameterSet
import Mathlib.Algebra.BigOperators.Fin
import Mathlib.Algebra.BigOperators.Ring.Finset
import Mathlib.Algebra.Order.BigOperators.Group.Finset
import Mathlib.Algebra.Order.Ring.Abs
import Mathlib.Tactic.Ring
import Mathlib.Tactic.Linarith

/-
  The schoolbook product modulo `X^256 + 1`, over any ring of
  coefficients, and the values of polynomials.

  Main declarations:
    * `Negacyclic.Element`
    * `Negacyclic.product`
    * `Negacyclic.product_map`
    * `Negacyclic.product_bounds`
    * `Negacyclic.valueAt`
    * `Negacyclic.valueAt_product`
    * `Negacyclic.apply`
-/

------------------------------------------------------------
-- Schoolbook Product
------------------------------------------------------------

namespace LatticeSignature

namespace Negacyclic

variable {R S : Type}
variable [CommRing R] [CommRing S]

/- The coefficients of a ring element, constant one first. -/
abbrev Element (R : Type) :=
  Fin degree → R

/-
  The factor with which `X^i * X^j` enters the coefficient
  of `X^k`, where `X^256` is `-1`.
-/
def sign
    (i j k : Fin degree) : R :=
  if i.val + j.val = k.val then
    1
  else if i.val + j.val = k.val + 256 then
    -1
  else
    0

/- The product of two elements, coefficient by coefficient. -/
def product
    (a b : Element R) : Element R :=
  fun k => ∑ i, ∑ j, sign i j k * (a i * b j)

/- One power of `X` is left of the product of two. -/
theorem sign_eq_ite_sum
    (i j k : Fin degree) :
    (sign i j k : R) =
      if k = i + j then
        if i.val + j.val < 256 then 1 else -1
      else
        0 := by
  have hi : i.val < 256 := i.isLt
  have hj : j.val < 256 := j.isLt
  have hk : k.val < 256 := k.isLt
  have hSum : (i + j).val = (i.val + j.val) % 256 :=
    Fin.val_add i j
  unfold sign
  simp only [Fin.ext_iff, hSum]
  split_ifs <;> first | rfl | omega

/- One power of `X` completes another one to a given power. -/
theorem sign_eq_ite_difference
    (i j k : Fin degree) :
    (sign i j k : R) =
      if j = k - i then
        if i.val ≤ k.val then 1 else -1
      else
        0 := by
  have hi : i.val < 256 := i.isLt
  have hj : j.val < 256 := j.isLt
  have hk : k.val < 256 := k.isLt
  have hDifference :
      (k - i).val = (256 - i.val + k.val) % 256 :=
    Fin.val_sub k i
  unfold sign
  simp only [Fin.ext_iff, hDifference]
  split_ifs <;> first | rfl | omega

/- Homomorphisms of coefficients respect the product. -/
theorem product_map
    (f : R →+* S)
    (a b : Element R)
    (k : Fin degree) :
    f (product a b k) =
      product (fun i => f (a i)) (fun i => f (b i)) k := by
  have hSign :
      ∀ i j : Fin degree, f (sign i j k) = sign i j k := by
    intro i j
    unfold sign
    split_ifs <;> simp
  simp only [product, map_sum, map_mul, hSign]

------------------------------------------------------------
-- Bounds of Integer Products
------------------------------------------------------------

/- The sum of the magnitudes of the coefficients. -/
def totalMagnitude
    (a : Element Int) : Int :=
  ∑ i, |a i|

/-
  A coefficient of the product takes every coefficient of the
  left factor once.
-/
theorem product_eq_sum
    (a b : Element R)
    (k : Fin degree) :
    product a b k =
      ∑ i, (if i.val ≤ k.val then 1 else -1)
        * (a i * b (k - i)) := by
  unfold product
  apply Finset.sum_congr rfl
  intro i _
  simp only [sign_eq_ite_difference, ite_mul, zero_mul,
    Finset.sum_ite_eq', Finset.mem_univ, if_true]

theorem product_bounds
    {a b : Element Int}
    {weight bound : Int}
    (hWeight : totalMagnitude a ≤ weight)
    (hBound : ∀ j, |b j| ≤ bound)
    (k : Fin degree) :
    |product a b k| ≤ weight * bound := by
  have hNonneg : 0 ≤ bound := (abs_nonneg _).trans (hBound k)
  have hTerm :
      ∀ i : Fin degree,
        |(if i.val ≤ k.val then 1 else -1)
            * (a i * b (k - i))| ≤ |a i| * bound := by
    intro i
    have hSigned :
        |(if i.val ≤ k.val then 1 else -1)
            * (a i * b (k - i))| = |a i| * |b (k - i)| := by
      split <;> simp [abs_mul]
    rw [hSigned]
    exact mul_le_mul_of_nonneg_left (hBound _) (abs_nonneg _)
  calc
    |product a b k|
      ≤ ∑ i, |(if i.val ≤ k.val then 1 else -1)
            * (a i * b (k - i))| := by
          rw [product_eq_sum]
          exact Finset.abs_sum_le_sum_abs _ _
    _ ≤ ∑ i, |a i| * bound :=
        Finset.sum_le_sum fun i _ => hTerm i
    _ = totalMagnitude a * bound := by
        rw [totalMagnitude, Finset.sum_mul]
    _ ≤ weight * bound :=
        mul_le_mul_of_nonneg_right hWeight hNonneg

------------------------------------------------------------
-- Values of Polynomials
------------------------------------------------------------

/- The value of a polynomial at a point. -/
def valueAt
    {n : Nat}
    (a : Fin n → R)
    (x : R) : R :=
  ∑ i : Fin n, a i * x ^ i.val

theorem valueAt_add
    {n : Nat}
    (a b : Fin n → R)
    (x : R) :
    valueAt (a + b) x = valueAt a x + valueAt b x := by
  simp only [valueAt, Pi.add_apply, add_mul,
    Finset.sum_add_distrib]

theorem valueAt_sub
    {n : Nat}
    (a b : Fin n → R)
    (x : R) :
    valueAt (a - b) x = valueAt a x - valueAt b x := by
  simp only [valueAt, Pi.sub_apply, sub_mul,
    Finset.sum_sub_distrib]

theorem valueAt_smul
    {n : Nat}
    (c : R)
    (a : Fin n → R)
    (x : R) :
    valueAt (c • a) x = c * valueAt a x := by
  simp only [valueAt, Pi.smul_apply, smul_eq_mul,
    Finset.mul_sum, mul_assoc]

/- The powers of a root of `X^256 + 1` wrap with a sign. -/
theorem sum_sign_mul_pow
    {x : R}
    (hRoot : x ^ 256 = -1)
    (i j : Fin degree) :
    ∑ k : Fin degree, sign i j k * x ^ k.val =
      x ^ i.val * x ^ j.val := by
  have hSum : (i + j).val = (i.val + j.val) % 256 :=
    Fin.val_add i j
  have hi : i.val < 256 := i.isLt
  have hj : j.val < 256 := j.isLt
  simp only [sign_eq_ite_sum, ite_mul, zero_mul,
    Finset.sum_ite_eq', Finset.mem_univ, if_true, hSum]
  rw [← pow_add]
  split
  · rename_i hLt
    rw [Nat.mod_eq_of_lt hLt, one_mul]
  · rename_i hGe
    have hWrap :
        i.val + j.val = (i.val + j.val) % 256 + 256 := by
      omega
    rw [neg_one_mul]
    conv_rhs => rw [hWrap, pow_add, hRoot, mul_neg_one]

/- Values at roots of `X^256 + 1` multiply. -/
theorem valueAt_product
    {x : R}
    (hRoot : x ^ 256 = -1)
    (a b : Element R) :
    valueAt (product a b) x = valueAt a x * valueAt b x := by
  calc
    valueAt (product a b) x
      = ∑ k, ∑ i, ∑ j,
          a i * b j * (sign i j k * x ^ k.val) := by
          unfold valueAt product
          apply Finset.sum_congr rfl
          intro k _
          rw [Finset.sum_mul]
          apply Finset.sum_congr rfl
          intro i _
          rw [Finset.sum_mul]
          apply Finset.sum_congr rfl
          intro j _
          ring
    _ = ∑ i, ∑ j, ∑ k,
          a i * b j * (sign i j k * x ^ k.val) := by
        rw [Finset.sum_comm]
        apply Finset.sum_congr rfl
        intro i _
        exact Finset.sum_comm
    _ = ∑ i, ∑ j,
          a i * x ^ i.val * (b j * x ^ j.val) := by
        apply Finset.sum_congr rfl
        intro i _
        apply Finset.sum_congr rfl
        intro j _
        rw [← Finset.mul_sum, sum_sign_mul_pow hRoot]
        ring
    _ = valueAt a x * valueAt b x := by
        unfold valueAt
        rw [Finset.sum_mul_sum]

------------------------------------------------------------
-- Matrices and Sums
------------------------------------------------------------

/- The product of a matrix and a vector of ring elements. -/
def apply
    {rows columns : Nat}
    (a : Fin rows → Fin columns → Element R)
    (v : Fin columns → Element R) : Fin rows → Element R :=
  fun i => ∑ j, product (a i j) (v j)

theorem product_add
    (a b c : Element R) :
    product a (b + c) = product a b + product a c := by
  funext k
  simp only [product, Pi.add_apply, mul_add,
    Finset.sum_add_distrib]

theorem product_sub
    (a b c : Element R) :
    product a (b - c) = product a b - product a c := by
  funext k
  simp only [product, Pi.sub_apply, mul_sub,
    Finset.sum_sub_distrib]

theorem apply_add
    {rows columns : Nat}
    (a : Fin rows → Fin columns → Element R)
    (v w : Fin columns → Element R) :
    apply a (v + w) = apply a v + apply a w := by
  funext i
  simp only [apply, Pi.add_apply, product_add,
    Finset.sum_add_distrib]

end Negacyclic

end LatticeSignature
