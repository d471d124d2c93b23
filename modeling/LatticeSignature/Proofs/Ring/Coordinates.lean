import LatticeSignature.Proofs.Field.Roots
import LatticeSignature.Proofs.Ring.Negacyclic
import Mathlib.Algebra.BigOperators.Pi
import Mathlib.Tactic.LinearCombination

/-
  A ring element is determined by its coordinates, which are
  its values at the odd powers of the root of unity.  Sums and
  products of elements are those of their coordinates.

  Main declarations:
    * `Transform.leftResidue`, `Transform.rightResidue`
    * `Transform.valueAt_left`, `Transform.valueAt_right`
    * `Transform.interpolate`
    * `Transform.coordinates`
    * `Transform.coordinates_product`
    * `Transform.ofCoordinates`
    * `Transform.ofCoordinates_coordinates`
    * `Transform.coordinates_ofCoordinates`
    * `Transform.apply_product`
-/

------------------------------------------------------------
-- Halves of Coefficients
------------------------------------------------------------

namespace LatticeSignature

namespace Transform

open Negacyclic

variable {α : Type}
variable {d : Nat}

/- The coefficients with the given halves. -/
def glue
    (lo hi : Fin (2 ^ d) → α) : Fin (2 ^ (d + 1)) → α :=
  fun i =>
    if hLt : i.val < 2 ^ d then
      lo ⟨i.val, hLt⟩
    else
      hi ⟨i.val - 2 ^ d, by
        have hi := i.isLt
        have hPow := Nat.pow_succ' (m := 2) (n := d)
        omega⟩

/- Two halves make the whole again. -/
theorem glue_halves
    (a : Fin (2 ^ (d + 1)) → α) :
    glue (a ∘ Halves.lowerIndex) (a ∘ Halves.upperIndex) =
      a := by
  funext i
  unfold glue
  split
  · rfl
  · rename_i hGe
    apply congrArg a
    apply Fin.ext
    simp only [Halves.upperIndex]
    omega

/- A value is put together from the values of the halves. -/
theorem valueAt_halves
    (a : Fin (2 ^ (d + 1)) → Residue)
    (x : Residue) :
    valueAt a x =
      valueAt (a ∘ Halves.lowerIndex) x
        + x ^ 2 ^ d * valueAt (a ∘ Halves.upperIndex) x := by
  have hSize : 2 ^ d + 2 ^ d = 2 ^ (d + 1) := by
    rw [Nat.pow_succ, Nat.mul_two]
  unfold valueAt
  rw [← Fin.sum_congr' (fun i => a i * x ^ i.val) hSize,
    Fin.sum_univ_add, Finset.mul_sum]
  congr 1
  apply Finset.sum_congr rfl
  intro i _
  have hPlace :
      Fin.cast hSize (Fin.natAdd (2 ^ d) i) =
        Halves.upperIndex i :=
    rfl
  simp only [hPlace, Function.comp_apply]
  simp only [Halves.upperIndex, pow_add]
  ring

------------------------------------------------------------
-- Residues at a Node
------------------------------------------------------------

/- The residue modulo the left factor of a node. -/
def leftResidue
    (node : Nat)
    (a : Fin (2 ^ (d + 1)) → Residue) :
    Fin (2 ^ d) → Residue :=
  a ∘ Halves.lowerIndex
    + zeta ^ Field.bitReverse 8 node • (a ∘ Halves.upperIndex)

/- The residue modulo the right factor of a node. -/
def rightResidue
    (node : Nat)
    (a : Fin (2 ^ (d + 1)) → Residue) :
    Fin (2 ^ d) → Residue :=
  a ∘ Halves.lowerIndex
    - zeta ^ Field.bitReverse 8 node • (a ∘ Halves.upperIndex)

/- Values below the left half are those of its residue. -/
theorem valueAt_left
    (node : Nat)
    (a : Fin (2 ^ (d + 1)) → Residue)
    (i : Fin (2 ^ d))
    (hLt : 2 ^ d * (2 * node) + i.val < 512) :
    valueAt a (point (2 ^ d * (2 * node) + i.val)) =
      valueAt (leftResidue node a)
        (point (2 ^ d * (2 * node) + i.val)) := by
  rw [valueAt_halves,
    point_pow_two_pow d (2 * node) i.val hLt i.isLt,
    point_even, leftResidue, valueAt_add, valueAt_smul]

/- Values below the right half are those of its residue. -/
theorem valueAt_right
    (node : Nat)
    (a : Fin (2 ^ (d + 1)) → Residue)
    (i : Fin (2 ^ d))
    (hLt : 2 ^ d * (2 * node + 1) + i.val < 512) :
    valueAt a (point (2 ^ d * (2 * node + 1) + i.val)) =
      valueAt (rightResidue node a)
        (point (2 ^ d * (2 * node + 1) + i.val)) := by
  rw [valueAt_halves,
    point_pow_two_pow d (2 * node + 1) i.val hLt i.isLt,
    point_odd, rightResidue, valueAt_sub, valueAt_smul]
  ring

/- The values of a polynomial at all points below a node. -/
def valuesBelow
    (node : Nat)
    (a : Fin (2 ^ d) → Residue) : Fin (2 ^ d) → Residue :=
  fun i => valueAt a (point (2 ^ d * node + i.val))

/- A constant has its own value. -/
theorem valuesBelow_zero
    (node : Nat)
    (a : Fin (2 ^ 0) → Residue) :
    valuesBelow node a = a := by
  funext i
  change ∑ j : Fin 1, a j * point (1 * node + i.val) ^ j.val =
    a i
  rw [Fin.sum_univ_one, Fin.val_zero, pow_zero, mul_one]
  apply congrArg a
  apply Fin.ext
  simp

/- The points below a node are among the leaves. -/
theorem place_lt
    {node : Nat}
    (hNode : 2 ^ d * (node + 1) ≤ 512)
    (i : Fin (2 ^ d)) :
    2 ^ d * node + i.val < 512 := by
  have hi := i.isLt
  rw [Nat.mul_add, Nat.mul_one] at hNode
  omega

/- The left child of a node in the tree is in it. -/
theorem left_le
    {node : Nat}
    (hNode : 2 ^ (d + 1) * (node + 1) ≤ 512) :
    2 ^ d * (2 * node + 1) ≤ 512 := by
  rw [Nat.pow_succ', Nat.mul_assoc] at hNode
  calc
    2 ^ d * (2 * node + 1)
      ≤ 2 ^ d * (2 * (node + 1)) :=
        Nat.mul_le_mul_left _ (by omega)
    _ = 2 * (2 ^ d * (node + 1)) := by ring
    _ ≤ 512 := hNode

/- So is the right child. -/
theorem right_le
    {node : Nat}
    (hNode : 2 ^ (d + 1) * (node + 1) ≤ 512) :
    2 ^ d * (2 * node + 1 + 1) ≤ 512 := by
  rw [Nat.pow_succ', Nat.mul_assoc] at hNode
  calc
    2 ^ d * (2 * node + 1 + 1)
      = 2 * (2 ^ d * (node + 1)) := by ring
    _ ≤ 512 := hNode

/-
  The values in the lower half are those of the left residue.
-/
theorem valuesBelow_lower
    {node : Nat}
    (hNode : 2 ^ (d + 1) * (node + 1) ≤ 512)
    (a : Fin (2 ^ (d + 1)) → Residue) :
    valuesBelow node a ∘ Halves.lowerIndex =
      valuesBelow (2 * node) (leftResidue node a) := by
  funext i
  have hPlace :
      2 ^ (d + 1) * node + (Halves.lowerIndex i).val =
        2 ^ d * (2 * node) + i.val := by
    simp only [Halves.lowerIndex, Nat.pow_succ]
    ring
  simp only [Function.comp_apply, valuesBelow, hPlace]
  exact valueAt_left node a i (place_lt (left_le hNode) i)

/- Those in the upper half belong to the right residue. -/
theorem valuesBelow_upper
    {node : Nat}
    (hNode : 2 ^ (d + 1) * (node + 1) ≤ 512)
    (a : Fin (2 ^ (d + 1)) → Residue) :
    valuesBelow node a ∘ Halves.upperIndex =
      valuesBelow (2 * node + 1) (rightResidue node a) := by
  funext i
  have hPlace :
      2 ^ (d + 1) * node + (Halves.upperIndex i).val =
        2 ^ d * (2 * node + 1) + i.val := by
    simp only [Halves.upperIndex, Nat.pow_succ]
    ring
  simp only [Function.comp_apply, valuesBelow, hPlace]
  exact valueAt_right node a i (place_lt (right_le hNode) i)

------------------------------------------------------------
-- Interpolation
------------------------------------------------------------

/- The inverse of the root of a node. -/
def rootInverse
    (node : Nat) : Residue :=
  zeta ^ (512 - Field.bitReverse 8 node)

/- Reversed bits have their width. -/
theorem bitReverse_lt
    (width n : Nat) :
    Field.bitReverse width n < 2 ^ width := by
  induction width generalizing n with
  | zero => simp [Field.bitReverse]
  | succ width ih =>
      have hRest := ih (n / 2)
      have hPow := Nat.pow_succ' (m := 2) (n := width)
      rw [Field.bitReverse]
      rcases Nat.mod_two_eq_zero_or_one n with h | h <;>
        rw [h] <;> omega

/- Every root has an inverse. -/
theorem rootInverse_mul
    (node : Nat) :
    rootInverse node * zeta ^ Field.bitReverse 8 node = 1 := by
  have hLt : Field.bitReverse 8 node < 256 :=
    bitReverse_lt 8 node
  rw [rootInverse, ← pow_add,
    Nat.sub_add_cancel (by omega), zeta_pow_512]

/- The polynomial with given values at the points of a node. -/
def interpolate :
    (depth node : Nat) →
      (Fin (2 ^ depth) → Residue) →
      Fin (2 ^ depth) → Residue
  | 0, _, values => values
  | depth + 1, node, values =>
      let left :=
        interpolate depth (2 * node)
          (values ∘ Halves.lowerIndex)
      let right :=
        interpolate depth (2 * node + 1)
          (values ∘ Halves.upperIndex)
      glue
        (Residue.half • (left + right))
        ((Residue.half * rootInverse node) • (left - right))

/- Interpolation finds a polynomial again from its values. -/
theorem interpolate_valuesBelow
    (depth node : Nat)
    (hNode : 2 ^ depth * (node + 1) ≤ 512)
    (a : Fin (2 ^ depth) → Residue) :
    interpolate depth node (valuesBelow node a) = a := by
  induction depth generalizing node with
  | zero => exact valuesBelow_zero node a
  | succ depth ih =>
      have hLeft :=
        ih (2 * node) (left_le hNode) (leftResidue node a)
      have hRight :=
        ih (2 * node + 1) (right_le hNode) (rightResidue node a)
      simp only [interpolate, valuesBelow_lower hNode,
        valuesBelow_upper hNode, hLeft, hRight]
      have hLower :
          Residue.half
              • (leftResidue node a + rightResidue node a) =
            a ∘ Halves.lowerIndex := by
        funext i
        simp only [leftResidue, rightResidue, Pi.smul_apply,
          Pi.add_apply, Pi.sub_apply, smul_eq_mul]
        linear_combination
          (a ∘ Halves.lowerIndex) i * Residue.half_mul_two
      have hUpper :
          (Residue.half * rootInverse node)
              • (leftResidue node a - rightResidue node a) =
            a ∘ Halves.upperIndex := by
        funext i
        simp only [leftResidue, rightResidue, Pi.smul_apply,
          Pi.add_apply, Pi.sub_apply, smul_eq_mul]
        linear_combination
          (a ∘ Halves.upperIndex) i * Residue.half_mul_two
            + Residue.half * 2 * (a ∘ Halves.upperIndex) i
              * rootInverse_mul node
      rw [hLower, hUpper, glue_halves]

------------------------------------------------------------
-- Coordinates
------------------------------------------------------------

/-
  The coordinates of a ring element: its values at the odd
  powers of the root of unity, in bit-reversed order.
-/
def coordinates
    (a : Element Residue) : Element Residue :=
  fun i =>
    valueAt a (zeta ^ (2 * Field.bitReverse 8 i.val + 1))

/- The ring element with given coordinates. -/
def ofCoordinates
    (values : Element Residue) : Element Residue :=
  interpolate 8 1 values

/- The coordinates are the values below the root of the tree. -/
theorem coordinates_eq_valuesBelow
    (a : Element Residue) :
    coordinates a = valuesBelow (d := 8) 1 a := by
  funext i
  have hLeaf := point_leaf i.val i.isLt
  simp only [coordinates, valuesBelow, ← hLeaf]
  rfl

/- An element is found again in its coordinates. -/
theorem ofCoordinates_coordinates
    (a : Element Residue) :
    ofCoordinates (coordinates a) = a := by
  rw [coordinates_eq_valuesBelow]
  exact interpolate_valuesBelow 8 1 (by decide) a

/- No two elements have the same coordinates. -/
theorem coordinates_injective :
    Function.Injective coordinates :=
  Function.LeftInverse.injective ofCoordinates_coordinates

/- All values are coordinates, since elements are finitely many. -/
theorem coordinates_ofCoordinates
    (values : Element Residue) :
    coordinates (ofCoordinates values) = values := by
  have hSurjective : Function.Surjective coordinates :=
    Finite.injective_iff_surjective.1 coordinates_injective
  exact Function.LeftInverse.rightInverse_of_surjective
    ofCoordinates_coordinates hSurjective values

/- The coordinates are values at roots of `X^256 + 1`. -/
theorem coordinate_root
    (i : Nat) :
    (zeta ^ (2 * Field.bitReverse 8 i + 1)) ^ 256 = -1 := by
  rw [← pow_mul]
  have hExponent :
      (2 * Field.bitReverse 8 i + 1) * 256 =
        512 * Field.bitReverse 8 i + 256 := by
    ring
  rw [hExponent, pow_add, pow_mul, zeta_pow_512, one_pow,
    one_mul, zeta_pow_256]

/- Products are taken by coordinate. -/
theorem coordinates_product
    (a b : Element Residue) :
    coordinates (product a b) =
      coordinates a * coordinates b := by
  funext i
  exact valueAt_product (coordinate_root i.val) a b

/- Sums are taken by coordinate, too. -/
theorem coordinates_add
    (a b : Element Residue) :
    coordinates (a + b) = coordinates a + coordinates b := by
  funext i
  exact valueAt_add a b _

/- So are differences. -/
theorem coordinates_sub
    (a b : Element Residue) :
    coordinates (a - b) = coordinates a - coordinates b := by
  funext i
  exact valueAt_sub a b _

/- So are multiples. -/
theorem coordinates_smul
    (c : Residue)
    (a : Element Residue) :
    coordinates (c • a) = c • coordinates a := by
  funext i
  exact valueAt_smul c a _

/- So are sums of many elements. -/
theorem coordinates_sum
    {n : Nat}
    (f : Fin n → Element Residue) :
    coordinates (∑ j, f j) = ∑ j, coordinates (f j) := by
  funext i
  simp only [coordinates, valueAt, Finset.sum_apply,
    Finset.sum_mul]
  rw [Finset.sum_comm]

/- A matrix commutes with a factor of the ring. -/
theorem apply_product
    {rows columns : Nat}
    (a : Fin rows → Fin columns → Element Residue)
    (c : Element Residue)
    (v : Fin columns → Element Residue) :
    (apply a fun j => product c (v j)) =
      fun i => product c (apply a v i) := by
  funext i
  apply coordinates_injective
  simp only [apply, coordinates_product, coordinates_sum,
    Finset.mul_sum]
  apply Finset.sum_congr rfl
  intro j _
  ring

end Transform

end LatticeSignature
