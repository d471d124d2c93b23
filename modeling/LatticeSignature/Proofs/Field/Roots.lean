import LatticeSignature.Ring.Transform
import Mathlib.Data.ZMod.Basic
import Mathlib.Tactic.Ring

/-
  The residues modulo `q`, and the points at which the
  transform evaluates.  The halves of the modulus of a node
  are taken at the two square roots of its point.

  Main declarations:
    * `Residue`
    * `Residue.intCast_eq_iff`
    * `Residue.factor`, `Residue.factorInverse`
    * `Transform.zeta`
    * `Transform.point`
    * `Transform.point_even`, `Transform.point_odd`
    * `Transform.point_pow_two_pow`
    * `Transform.point_leaf`
    * `Transform.opposite_even`, `Transform.opposite_odd`
    * `Transform.root_eq_ok`, `Transform.intCast_scaledRoot`
-/

------------------------------------------------------------
-- Residues
------------------------------------------------------------

namespace LatticeSignature

/- The residues modulo `q`. -/
abbrev Residue :=
  ZMod 8380417

namespace Residue

/- Equal residues are congruent representatives. -/
theorem intCast_eq_iff
    (a b : Int) :
    (a : Residue) = b ↔ Field.Congruent a b :=
  ZMod.intCast_eq_intCast_iff a b 8380417

/- Two representatives differ by a multiple of `q`. -/
theorem exists_eq_add_of_intCast_eq
    {a b : Int}
    (h : (a : Residue) = b) :
    ∃ k, a = b + Field.q * k := by
  have hMod := (intCast_eq_iff a b).1 h
  refine ⟨(a - b) / Field.q, ?_⟩
  unfold Field.Congruent Field.q at *
  omega

/- Multiples of `q` do not change a residue. -/
theorem intCast_add_q_mul
    (a k : Int) :
    ((a + Field.q * k : Int) : Residue) = a := by
  rw [intCast_eq_iff]
  unfold Field.Congruent
  exact Int.add_mul_emod_self_left a Field.q k

/- The Montgomery factor. -/
def factor : Residue :=
  (4294967296 : Int)

/- The inverse of the Montgomery factor. -/
def factorInverse : Residue :=
  (8265825 : Int)

/- The inverse undoes the factor. -/
theorem factorInverse_mul_factor :
    factorInverse * factor = 1 := by
  rw [factorInverse, factor, ← Int.cast_mul, ← Int.cast_one,
    intCast_eq_iff]
  decide

/- The constants of the field are powers of the factor. -/
theorem intCast_montgomeryOne :
    (Field.montgomeryOne : Residue) = factor :=
  (intCast_eq_iff _ _).2 Field.montgomeryOne_congruent

/- The square of the factor, as a word. -/
theorem intCast_montgomerySquare :
    (Field.montgomerySquare : Residue) = factor * factor := by
  rw [factor, ← Int.cast_mul]
  exact (intCast_eq_iff _ _).2 Field.montgomerySquare_congruent

/- A 256th of the square, as a word. -/
theorem intCast_inverseScale :
    256 * (Field.inverseScale : Residue) = factor * factor := by
  have hCast :
      256 * (Field.inverseScale : Residue) =
        (256 * Field.inverseScale : Int) := by
    push_cast
    rfl
  rw [hCast, factor, ← Int.cast_mul]
  exact (intCast_eq_iff _ _).2 Field.inverseScale_congruent

/- The inverse of two. -/
def half : Residue :=
  (4190209 : Int)

/- Twice the half is one. -/
theorem half_mul_two :
    half * 2 = 1 := by
  rw [half, ← Int.cast_two, ← Int.cast_mul, ← Int.cast_one,
    intCast_eq_iff]
  decide

end Residue

------------------------------------------------------------
-- Bit Reversal
------------------------------------------------------------

namespace Field

/- No bit is set in any order. -/
@[simp] theorem bitReverse_zero
    (width : Nat) :
    bitReverse width 0 = 0 := by
  induction width with
  | zero => rfl
  | succ width ih => simp [bitReverse, ih]

/- The low bit becomes the high one; here it is not set. -/
theorem bitReverse_even
    (width n : Nat) :
    bitReverse (width + 1) (2 * n) = bitReverse width n := by
  simp [bitReverse]

/- Here the low bit is set. -/
theorem bitReverse_odd
    (width n : Nat) :
    bitReverse (width + 1) (2 * n + 1) =
      2 ^ width + bitReverse width n := by
  have hHalf : (2 * n + 1) / 2 = n := by omega
  simp [bitReverse, hHalf]

/- One more place in front doubles the reversed number. -/
theorem bitReverse_succ_of_lt
    (width n : Nat)
    (hLt : n < 2 ^ width) :
    bitReverse (width + 1) n = 2 * bitReverse width n := by
  induction width generalizing n with
  | zero =>
      have hZero : n = 0 := by
        simpa using hLt
      simp [hZero]
  | succ width ih =>
      have hPow : 2 ^ (width + 1) = 2 * 2 ^ width :=
        Nat.pow_succ'
      have hHalf : n / 2 < 2 ^ width := by omega
      rw [bitReverse, ih _ hHalf, bitReverse, hPow]
      ring

/- A bit in front of the number becomes its lowest bit. -/
theorem bitReverse_two_pow_add
    (width i : Nat)
    (hLt : i < 2 ^ width) :
    bitReverse (width + 1) (2 ^ width + i) =
      2 * bitReverse width i + 1 := by
  induction width generalizing i with
  | zero =>
      have hZero : i = 0 := by
        simpa using hLt
      subst hZero
      decide
  | succ width ih =>
      have hPow : 2 ^ (width + 1) = 2 * 2 ^ width :=
        Nat.pow_succ'
      have hHalf : (2 ^ (width + 1) + i) / 2 = 2 ^ width + i / 2 := by
        omega
      have hRest : (2 ^ (width + 1) + i) % 2 = i % 2 := by
        omega
      rw [bitReverse, hHalf, hRest, ih _ (by omega),
        bitReverse, hPow]
      ring

/-
  Numbers whose bits below a common leading one are
  complements of each other.
-/
theorem bitReverse_add_bitReverse
    (width level k m : Nat)
    (hLevel : level < width)
    (hSum : k + m + 1 = 3 * 2 ^ level)
    (hk : 2 ^ level ≤ k)
    (hm : 2 ^ level ≤ m) :
    bitReverse width k + bitReverse width m = 2 ^ width := by
  induction width generalizing level k m with
  | zero => omega
  | succ width ih =>
      have hPow : 2 ^ (width + 1) = 2 * 2 ^ width :=
        Nat.pow_succ'
      cases level with
      | zero =>
          have hkOne : k = 1 := by
            simp at hSum hk hm
            omega
          have hmOne : m = 1 := by
            simp at hSum hk hm
            omega
          subst hkOne hmOne
          simp only [bitReverse, Nat.one_mod, Nat.reduceDiv,
            bitReverse_zero, hPow]
          omega
      | succ level =>
          have hPowLevel : 2 ^ (level + 1) = 2 * 2 ^ level :=
            Nat.pow_succ'
          have hParity : k % 2 + m % 2 = 1 := by omega
          have hRest :=
            ih level (k / 2) (m / 2)
              (by omega) (by omega) (by omega) (by omega)
          simp only [bitReverse, hPow]
          calc
            2 ^ width * (k % 2) + bitReverse width (k / 2)
                + (2 ^ width * (m % 2)
                  + bitReverse width (m / 2))
              = 2 ^ width * (k % 2 + m % 2)
                  + (bitReverse width (k / 2)
                    + bitReverse width (m / 2)) := by ring
            _ = 2 * 2 ^ width := by
                rw [hParity, hRest]
                ring

end Field

------------------------------------------------------------
-- Evaluation Points
------------------------------------------------------------

namespace Transform

/- The residue of the root of unity. -/
def zeta : Residue :=
  Field.rootOfUnity

/- Half way around, the root of unity is `-1`. -/
theorem zeta_pow_256 :
    zeta ^ 256 = -1 := by
  rw [zeta, ← Int.cast_pow, ← Int.cast_one, ← Int.cast_neg,
    Residue.intCast_eq_iff]
  exact Field.rootOfUnity_pow_256

/- The whole way around it is `1`. -/
theorem zeta_pow_512 :
    zeta ^ 512 = 1 := by
  calc
    zeta ^ 512 = (zeta ^ 256) ^ 2 := by rw [← pow_mul]
    _ = 1 := by rw [zeta_pow_256, neg_one_sq]

/-
  The point of a node: its modulus is `X^n` less this residue,
  where `n` is the size of the node.
-/
def point
    (node : Nat) : Residue :=
  zeta ^ Field.bitReverse 9 node

/- The points of two siblings are opposite roots. -/
theorem point_even
    (node : Nat) :
    point (2 * node) = zeta ^ Field.bitReverse 8 node := by
  rw [point, Field.bitReverse_even]

/- The point of the other sibling has the other sign. -/
theorem point_odd
    (node : Nat) :
    point (2 * node + 1) = -zeta ^ Field.bitReverse 8 node := by
  rw [point, Field.bitReverse_odd, pow_add]
  have hPow : (2 : Nat) ^ 8 = 256 := by decide
  rw [hPow, zeta_pow_256, neg_one_mul]

/- The points of the halves are the roots of the point. -/
theorem point_sq
    (node : Nat)
    (hLt : node < 512) :
    point node ^ 2 = point (node / 2) := by
  have hHalf : node / 2 < 2 ^ 8 := by omega
  have hExponent :
      Field.bitReverse 9 node * 2 =
        512 * (node % 2) + Field.bitReverse 9 (node / 2) := by
    rw [Field.bitReverse_succ_of_lt 8 (node / 2) hHalf, Field.bitReverse]
    omega
  rw [point, point, ← pow_mul, hExponent, pow_add, pow_mul,
    zeta_pow_512, one_pow, one_mul]

/- The points below a node are roots of the node's point. -/
theorem point_pow_two_pow
    (depth node i : Nat)
    (hLt : 2 ^ depth * node + i < 512)
    (hi : i < 2 ^ depth) :
    point (2 ^ depth * node + i) ^ 2 ^ depth = point node := by
  induction depth generalizing i with
  | zero =>
      have hZero : i = 0 := by
        simpa using hi
      simp [hZero]
  | succ depth ih =>
      have hPow : 2 ^ (depth + 1) = 2 * 2 ^ depth :=
        Nat.pow_succ'
      have hHalf :
          (2 ^ (depth + 1) * node + i) / 2 =
            2 ^ depth * node + i / 2 := by
        rw [hPow, mul_assoc]
        omega
      have hBelow : 2 ^ depth * node + i / 2 < 512 := by
        omega
      calc
        point (2 ^ (depth + 1) * node + i) ^ 2 ^ (depth + 1)
          = (point (2 ^ (depth + 1) * node + i) ^ 2)
              ^ 2 ^ depth := by rw [hPow, pow_mul]
        _ = point (2 ^ depth * node + i / 2) ^ 2 ^ depth := by
            rw [point_sq _ hLt, hHalf]
        _ = point node := ih _ hBelow (by omega)

/- The leaves are the odd powers, in bit-reversed order. -/
theorem point_leaf
    (i : Nat)
    (hi : i < 256) :
    point (256 + i) = zeta ^ (2 * Field.bitReverse 8 i + 1) := by
  have hReverse := Field.bitReverse_two_pow_add 8 i hi
  have h : Field.bitReverse 9 (256 + i) = 2 * Field.bitReverse 8 i + 1 :=
    hReverse
  rw [point, h]

------------------------------------------------------------
-- Opposite Nodes
------------------------------------------------------------

/-
  Two nodes of one level, counted from opposite ends.  The
  inverse transform reads the root of one node where the
  forward transform reads that of the other.
-/
def Opposite
    (level node mirror : Nat) : Prop :=
  node + mirror + 1 = 3 * 2 ^ level
    ∧ 2 ^ level ≤ node
    ∧ 2 ^ level ≤ mirror

/- The root of the tree is opposite to itself. -/
theorem opposite_one :
    Opposite 0 1 1 := by
  simp [Opposite]

/- Opposite nodes have their children crosswise. -/
theorem opposite_even
    {level node mirror : Nat}
    (h : Opposite level node mirror) :
    Opposite (level + 1) (2 * node) (2 * mirror + 1) := by
  unfold Opposite at *
  rw [Nat.pow_succ']
  omega

/- The same for the other children. -/
theorem opposite_odd
    {level node mirror : Nat}
    (h : Opposite level node mirror) :
    Opposite (level + 1) (2 * node + 1) (2 * mirror) := by
  unfold Opposite at *
  rw [Nat.pow_succ']
  omega

/- Roots of opposite nodes are inverse up to the sign. -/
theorem zeta_pow_mul_of_opposite
    {level node mirror : Nat}
    (h : Opposite level node mirror)
    (hLevel : level < 8) :
    zeta ^ Field.bitReverse 8 mirror * zeta ^ Field.bitReverse 8 node =
      -1 := by
  rcases h with ⟨hSum, hNode, hMirror⟩
  rw [← pow_add, Nat.add_comm,
    Field.bitReverse_add_bitReverse 8 level node mirror
      hLevel hSum hNode hMirror]
  have hPow : (2 : Nat) ^ 8 = 256 := by decide
  rw [hPow, zeta_pow_256]

/- The table has an entry for every node of the transform. -/
theorem root_eq_ok
    {ε : Type}
    {node : Nat}
    (hLt : node < 256) :
    (root node : Outcome ε Int) = .ok (Field.scaledRoot node) := by
  simp [root, Field.roots, hLt]

/- A table entry is a scaled power of the root of unity. -/
theorem intCast_scaledRoot
    (node : Nat)
    (hPos : node ≠ 0) :
    (Field.scaledRoot node : Residue) =
      Residue.factor * zeta ^ Field.bitReverse 8 node := by
  have h :=
    (Residue.intCast_eq_iff _ _).2
      (Field.scaledRoot_congruent node hPos)
  have hFactor : (2 : Int) ^ 32 = 4294967296 := by decide
  rw [h, hFactor, Int.cast_mul, Int.cast_pow, Residue.factor,
    zeta]

/- Table entries are centred. -/
theorem scaledRoot_within
    (node : Nat) :
    -4190208 ≤ Field.scaledRoot node
      ∧ Field.scaledRoot node ≤ 4190208 := by
  unfold Field.scaledRoot
  split
  · omega
  · have hLower :=
      Int.le_bmod
        (x := 2 ^ 32 * Field.rootOfUnity ^ Field.bitReverse 8 node)
        (m := 8380417) (by decide)
    have hUpper :=
      Int.bmod_lt
        (x := 2 ^ 32 * Field.rootOfUnity ^ Field.bitReverse 8 node)
        (m := 8380417) (by decide)
    omega

end Transform

end LatticeSignature
