import LatticeSignature.Field.Roots
import LatticeSignature.Ring.Poly

/-
  The number-theoretic transform and its inverse, by splitting
  a vector into halves.  Each split has a node number: the
  whole vector has node 1, and the halves of node `k` have the
  nodes `2 * k` and `2 * k + 1`.

  Main declarations:
    * `Halves.lower`, `Halves.upper`, `Halves.join`
    * `Halves.join_lower_upper`
    * `Transform.forward`
    * `Transform.backward`
    * `Poly.transform`
    * `Poly.inverseTransform`
-/

------------------------------------------------------------
-- Halves of a Vector
------------------------------------------------------------

namespace LatticeSignature

open scoped Powers

namespace Halves

variable {α : Type}
variable {d : Nat}

/- The place of an entry of the lower half. -/
def lowerIndex
    (i : Fin (2 ^ d)) : Fin (2 ^ (d + 1)) :=
  ⟨i.val, by
    have hLt := i.isLt
    rw [Nat.pow_succ]
    omega⟩

/- The place of an entry of the upper half. -/
def upperIndex
    (i : Fin (2 ^ d)) : Fin (2 ^ (d + 1)) :=
  ⟨2 ^ d + i.val, by
    have hLt := i.isLt
    rw [Nat.pow_succ]
    omega⟩

/- The entries of the lower half. -/
def lower
    (v : Vector α (2 ^ (d + 1))) : Vector α (2 ^ d) :=
  Vector.ofFn fun i => v[lowerIndex i]

/- The entries of the upper half. -/
def upper
    (v : Vector α (2 ^ (d + 1))) : Vector α (2 ^ d) :=
  Vector.ofFn fun i => v[upperIndex i]

/- The vector with the given halves. -/
def join
    (lo hi : Vector α (2 ^ d)) : Vector α (2 ^ (d + 1)) :=
  (lo ++ hi).cast (by rw [Nat.pow_succ, Nat.mul_two])

@[simp] theorem lower_join
    (lo hi : Vector α (2 ^ d)) :
    lower (join lo hi) = lo := by
  apply Vector.ext
  intro i hLt
  simp [lower, lowerIndex, join]

@[simp] theorem upper_join
    (lo hi : Vector α (2 ^ d)) :
    upper (join lo hi) = hi := by
  apply Vector.ext
  intro i hLt
  simp [upper, upperIndex, join]

theorem join_lower_upper
    (v : Vector α (2 ^ (d + 1))) :
    join (lower v) (upper v) = v := by
  apply Vector.ext
  intro i hLt
  simp only [join, lower, upper, lowerIndex, upperIndex,
    Vector.getElem_cast, Vector.getElem_append,
    Vector.getElem_ofFn, getElem_index]
  split
  · rfl
  · congr 1
    omega

end Halves

------------------------------------------------------------
-- Recursive Transforms
------------------------------------------------------------

namespace Transform

variable {ε : Type}

/- The table entry that belongs to a node. -/
def root
    (node : Nat) : Outcome ε Int :=
  match Field.roots[node]? with
  | some scaled => .ok scaled
  | none => .error .overflow

/-
  Split a vector of `2^depth` coefficients at its node, then
  transform both halves.  A split sends the polynomial modulo
  `X^(2n) - r^2` to its residues modulo `X^n - r` and
  `X^n + r`.
-/
def forward :
    (depth : Nat) →
      (node : Nat) →
      Vector Int (2 ^ depth) →
      Outcome ε (Vector Int (2 ^ depth))
  | 0, _, v => .ok v
  | depth + 1, node, v => do
      let r ← root node
      let lo := Halves.lower v
      let hi := Halves.upper v
      let scaled ← Outcome.mapEntries (Field.montgomeryMul r) hi
      let left ← Outcome.zipEntries Word.add32 lo scaled
      let right ← Outcome.zipEntries Word.sub32 lo scaled
      let left ← forward depth (2 * node) left
      let right ← forward depth (2 * node + 1) right
      return Halves.join left right

/-
  Undo the split of a node after those of its halves.  Roots
  are taken in the opposite order and with the opposite sign,
  and every level leaves a factor of two behind.
-/
def backward :
    (depth : Nat) →
      (node : Nat) →
      Vector Int (2 ^ depth) →
      Outcome ε (Vector Int (2 ^ depth))
  | 0, _, v => .ok v
  | depth + 1, node, v => do
      let left ← backward depth (2 * node + 1) (Halves.lower v)
      let right ← backward depth (2 * node) (Halves.upper v)
      let r ← root node
      let lo ← Outcome.zipEntries Word.add32 left right
      let difference ←
        Outcome.zipEntries Word.sub32 left right
      let hi ←
        Outcome.mapEntries (Field.montgomeryMul (-r)) difference
      return Halves.join lo hi

end Transform

namespace Poly

variable {ε : Type}

/- The transform of a polynomial. -/
def transform
    (p : Poly) : Outcome ε Poly :=
  Transform.forward 8 1 p

/-
  The inverse transform, scaled by the Montgomery factor.
-/
def inverseTransform
    (p : Poly) : Outcome ε Poly := do
  let v ← Transform.backward 8 1 p
  Outcome.mapEntries (Field.montgomeryMul Field.inverseScale) v

end Poly

end LatticeSignature
