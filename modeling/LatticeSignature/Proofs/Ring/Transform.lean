import LatticeSignature.Proofs.Ring.Coordinates
import LatticeSignature.Proofs.Ring.Entries
import LatticeSignature.Ring.Transform

/-
  The transform of a polynomial returns representatives of its
  coordinates, and the inverse transform those of the element
  with given coordinates.  No step in between leaves its word.

  Main declarations:
    * `Transform.forward_returns`
    * `Transform.backward_returns`
    * `Poly.transform_returns`
    * `Poly.inverseTransform_returns`
-/

------------------------------------------------------------
-- Halves of a Vector
------------------------------------------------------------

namespace LatticeSignature

namespace Halves

variable {α : Type}
variable {d : Nat}

/- The lower half has the indices below the middle. -/
theorem getElem_lower
    (v : Vector α (2 ^ (d + 1)))
    (i : Fin (2 ^ d)) :
    (lower v)[i] = v[lowerIndex i] := by
  simp [lower]

/- The upper half has those from the middle on. -/
theorem getElem_upper
    (v : Vector α (2 ^ (d + 1)))
    (i : Fin (2 ^ d)) :
    (upper v)[i] = v[upperIndex i] := by
  simp [upper]

/- A place of the whole vector is one in either half. -/
theorem exists_index
    (i : Fin (2 ^ (d + 1))) :
    (∃ j : Fin (2 ^ d), i = lowerIndex j)
      ∨ ∃ j : Fin (2 ^ d), i = upperIndex j := by
  have hPow := Nat.pow_succ' (m := 2) (n := d)
  have hPlace := i.isLt
  by_cases hLt : i.val < 2 ^ d
  · exact Or.inl ⟨⟨i.val, hLt⟩, rfl⟩
  · refine Or.inr ⟨⟨i.val - 2 ^ d, by omega⟩, ?_⟩
    apply Fin.ext
    simp only [upperIndex]
    omega

/- Joined halves, below the middle. -/
theorem join_lowerIndex
    (lo hi : Vector α (2 ^ d))
    (j : Fin (2 ^ d)) :
    (join lo hi)[lowerIndex j] = lo[j] := by
  rw [← getElem_lower, lower_join]

/- Joined halves, from the middle on. -/
theorem join_upperIndex
    (lo hi : Vector α (2 ^ d))
    (j : Fin (2 ^ d)) :
    (join lo hi)[upperIndex j] = hi[j] := by
  rw [← getElem_upper, upper_join]

end Halves

namespace Entries

variable {d : Nat}

/- Residues are halved as the words are. -/
theorem residues_lower
    (v : Vector Int (2 ^ (d + 1))) :
    residues (Halves.lower v) =
      residues v ∘ Halves.lowerIndex := by
  funext i
  simp only [residues, Halves.getElem_lower,
    Function.comp_apply]

/- The same for the upper half. -/
theorem residues_upper
    (v : Vector Int (2 ^ (d + 1))) :
    residues (Halves.upper v) =
      residues v ∘ Halves.upperIndex := by
  funext i
  simp only [residues, Halves.getElem_upper,
    Function.comp_apply]

/- A half is no larger than the whole. -/
theorem Within.lower
    {bound : Int}
    {v : Vector Int (2 ^ (d + 1))}
    (h : Within bound v) :
    Within bound (Halves.lower v) := by
  intro i
  rw [Halves.getElem_lower]
  exact h _

/- The same for the upper half. -/
theorem Within.upper
    {bound : Int}
    {v : Vector Int (2 ^ (d + 1))}
    (h : Within bound v) :
    Within bound (Halves.upper v) := by
  intro i
  rw [Halves.getElem_upper]
  exact h _

/- The whole is no larger than its halves. -/
theorem within_join
    {bound : Int}
    {lo hi : Vector Int (2 ^ d)}
    (hLower : Within bound lo)
    (hUpper : Within bound hi) :
    Within bound (Halves.join lo hi) := by
  intro i
  rcases Halves.exists_index i with ⟨j, rfl⟩ | ⟨j, rfl⟩
  · rw [Halves.join_lowerIndex]
    exact hLower j
  · rw [Halves.join_upperIndex]
    exact hUpper j

/- Residues of a joined vector are compared by halves. -/
theorem residues_join_eq
    {lo hi : Vector Int (2 ^ d)}
    {a : Fin (2 ^ (d + 1)) → Residue}
    (hLower : residues lo = a ∘ Halves.lowerIndex)
    (hUpper : residues hi = a ∘ Halves.upperIndex) :
    residues (Halves.join lo hi) = a := by
  funext i
  rcases Halves.exists_index i with ⟨j, rfl⟩ | ⟨j, rfl⟩
  · simp only [residues, Halves.join_lowerIndex]
    exact congrFun hLower j
  · simp only [residues, Halves.join_upperIndex]
    exact congrFun hUpper j

end Entries

------------------------------------------------------------
-- Forward Transform
------------------------------------------------------------

namespace Transform

open Outcome Entries

variable {ε : Type}
variable {d : Nat}

/- The upper half of a node, scaled by its root. -/
theorem scaled_returns
    {node : Nat}
    (hPos : node ≠ 0)
    {hi : Vector Int (2 ^ d)}
    (hWithin : Entries.Within 2147483647 hi) :
    Returns
      (mapEntries
        (Field.montgomeryMul (Field.scaledRoot node)) hi
        : Outcome ε (Vector Int (2 ^ d)))
      fun scaled =>
        Entries.Within (Field.q - 1) scaled
          ∧ residues scaled =
            zeta ^ Field.bitReverse 8 node • residues hi := by
  have hMul :=
    Entries.montgomeryMul_returns (ε := ε)
      (scaledRoot_within node) hWithin (by decide)
  refine hMul.mono ?_
  rintro scaled ⟨hRange, hResidues⟩
  refine ⟨hRange, ?_⟩
  rw [hResidues, intCast_scaledRoot node hPos, ← mul_assoc,
    Residue.factorInverse_mul_factor, one_mul]

/- A node with children has a word in the table. -/
theorem node_lt_of_le
    {depth node : Nat}
    (hNode : 2 ^ (depth + 1) * (node + 1) ≤ 512) :
    node < 256 := by
  have hPow : 1 ≤ 2 ^ depth := Nat.one_le_two_pow
  rw [Nat.pow_succ', Nat.mul_assoc] at hNode
  have hLe : node + 1 ≤ 2 ^ depth * (node + 1) :=
    Nat.le_mul_of_pos_left _ hPow
  omega

/-
  The values below a node are computed, and every level adds
  less than `q` to the magnitudes.
-/
theorem forward_returns
    (depth node : Nat)
    (bound : Int)
    (hPos : node ≠ 0)
    (hNode : 2 ^ depth * (node + 1) ≤ 512)
    (hNonneg : 0 ≤ bound)
    (hBound : bound + depth * (Field.q - 1) ≤ 2147483647)
    (v : Vector Int (2 ^ depth))
    (hWithin : Entries.Within bound v) :
    Returns
      (forward depth node v
        : Outcome ε (Vector Int (2 ^ depth)))
      fun w =>
        Entries.Within (bound + depth * (Field.q - 1)) w
          ∧ residues w = valuesBelow node (residues v) := by
  induction depth generalizing node bound with
  | zero =>
      refine returns_ok ⟨?_, ?_⟩
      · simpa using hWithin
      · exact (valuesBelow_zero node _).symm
  | succ depth ih =>
      have hLevels :
          bound + (Field.q - 1) + depth * (Field.q - 1) =
            bound + (depth + 1 : Nat) * (Field.q - 1) := by
        push_cast
        ring
      have hOne : bound + (Field.q - 1) ≤ 2147483647 := by
        have hRest : 0 ≤ (depth : Int) * (Field.q - 1) :=
          mul_nonneg (Int.natCast_nonneg _) (by decide)
        omega
      have hLow := hWithin.lower
      have hHigh := hWithin.upper
      have hWide :=
        hHigh.mono (show bound ≤ 2147483647 by
          unfold Field.q at hOne
          omega)
      rw [forward, root_eq_ok (node_lt_of_le hNode), ok_bind]
      refine Returns.bind (scaled_returns hPos hWide) ?_
      rintro scaled ⟨hScaled, hScaledResidues⟩
      refine Returns.bind
        (add_returns hLow hScaled hOne) ?_
      rintro left ⟨_, hLeft, hLeftResidues⟩
      refine Returns.bind
        (sub_returns hLow hScaled hOne) ?_
      rintro right ⟨_, hRight, hRightResidues⟩
      have hInner :
          bound + (Field.q - 1) + depth * (Field.q - 1)
            ≤ 2147483647 := by
        rw [hLevels]
        exact hBound
      have hStart : 0 ≤ bound + (Field.q - 1) := by
        unfold Field.q
        omega
      refine Returns.bind
        (ih (2 * node) _ (by omega) (left_le hNode) hStart
          hInner left hLeft) ?_
      rintro left' ⟨hLeft', hLeftValues⟩
      refine Returns.bind
        (ih (2 * node + 1) _ (by omega) (right_le hNode) hStart
          hInner right hRight) ?_
      rintro right' ⟨hRight', hRightValues⟩
      refine returns_ok ⟨?_, ?_⟩
      · rw [← hLevels]
        exact within_join hLeft' hRight'
      · apply residues_join_eq
        · rw [hLeftValues, valuesBelow_lower hNode,
            hLeftResidues, hScaledResidues, residues_lower,
            residues_upper]
          rfl
        · rw [hRightValues, valuesBelow_upper hNode,
            hRightResidues, hScaledResidues, residues_lower,
            residues_upper]
          rfl

------------------------------------------------------------
-- Inverse Transform
------------------------------------------------------------

/- The negated root of the opposite node is the inverse. -/
theorem intCast_neg_scaledRoot
    {level node mirror : Nat}
    (hOpposite : Opposite level node mirror)
    (hLevel : level < 8) :
    Residue.factorInverse
        * ((-Field.scaledRoot mirror : Int) : Residue)
        * zeta ^ Field.bitReverse 8 node =
      1 := by
  have hPos : mirror ≠ 0 := by
    have h := hOpposite.2.2
    have hPow : 1 ≤ 2 ^ level := Nat.one_le_two_pow
    omega
  have hInverse := zeta_pow_mul_of_opposite hOpposite hLevel
  have hFactor := Residue.factorInverse_mul_factor
  rw [Int.cast_neg, intCast_scaledRoot mirror hPos]
  linear_combination
    (-zeta ^ Field.bitReverse 8 mirror
        * zeta ^ Field.bitReverse 8 node) * hFactor
      - hInverse

/- The points below a node of a level are among the leaves. -/
theorem Opposite.le
    {depth level node mirror : Nat}
    (hOpposite : Opposite level node mirror)
    (hLevel : level + depth = 8) :
    2 ^ depth * (node + 1) ≤ 512 := by
  rcases hOpposite with ⟨hSum, _, hMirror⟩
  have hPow : 2 ^ (level + 1) = 2 * 2 ^ level :=
    Nat.pow_succ'
  calc
    2 ^ depth * (node + 1)
      ≤ 2 ^ depth * 2 ^ (level + 1) :=
        Nat.mul_le_mul_left _ (by omega)
    _ = 2 ^ (level + depth + 1) := by
        rw [← Nat.pow_add]
        congr 1
        omega
    _ = 512 := by
        rw [hLevel]
        rfl

/- The opposite of an inner node has a word in the table. -/
theorem Opposite.mirror_lt
    {level node mirror : Nat}
    (hOpposite : Opposite level node mirror)
    (hLevel : level < 8) :
    mirror < 256 := by
  rcases hOpposite with ⟨hSum, hNode, _⟩
  have hPow : 2 ^ level ≤ 2 ^ 7 :=
    Nat.pow_le_pow_right (by decide) (by omega)
  omega

/- The sum of the residues at a node is its lower half, twice. -/
theorem sum_residues
    (node : Nat)
    (scale : Residue)
    (a : Fin (2 ^ (d + 1)) → Residue) :
    scale • leftResidue node a + scale • rightResidue node a =
      (scale * 2) • a ∘ Halves.lowerIndex := by
  funext i
  simp only [leftResidue, rightResidue, Pi.add_apply,
    Pi.sub_apply, Pi.smul_apply, smul_eq_mul,
    Function.comp_apply]
  ring

/- Their difference is the upper half, with the root, twice. -/
theorem difference_residues
    (node : Nat)
    (scale : Residue)
    (a : Fin (2 ^ (d + 1)) → Residue) :
    scale • leftResidue node a - scale • rightResidue node a =
      (scale * 2 * zeta ^ Field.bitReverse 8 node)
        • a ∘ Halves.upperIndex := by
  funext i
  simp only [leftResidue, rightResidue, Pi.add_apply,
    Pi.sub_apply, Pi.smul_apply, smul_eq_mul,
    Function.comp_apply]
  ring

/-
  From the values below a node the polynomial is found again,
  with a factor of two for every level.
-/
theorem backward_returns
    (depth level node mirror : Nat)
    (bound : Int)
    (hOpposite : Opposite level node mirror)
    (hLevel : level + depth = 8)
    (hLarge : Field.q - 1 ≤ bound)
    (hBound : 2 ^ depth * bound ≤ 2147483647)
    (w : Vector Int (2 ^ depth))
    (hWithin : Entries.Within bound w)
    (a : Fin (2 ^ depth) → Residue)
    (hValues : residues w = valuesBelow node a) :
    Returns
      (backward depth mirror w
        : Outcome ε (Vector Int (2 ^ depth)))
      fun v =>
        Entries.Within (2 ^ depth * bound) v
          ∧ residues v = (2 ^ depth : Residue) • a := by
  induction depth generalizing level node mirror with
  | zero =>
      refine returns_ok ⟨?_, ?_⟩
      · simpa using hWithin
      · have hOne : (2 ^ 0 : Residue) = 1 := pow_zero 2
        rw [hValues, valuesBelow_zero, hOne, one_smul]
  | succ depth ih =>
      have hNode := hOpposite.le hLevel
      have hBelow : level < 8 := by omega
      have hTwice :
          2 ^ depth * bound + 2 ^ depth * bound =
            2 ^ (depth + 1) * bound := by
        ring
      have hPositive : 0 ≤ 2 ^ depth * bound := by
        apply mul_nonneg (by positivity)
        unfold Field.q at hLarge
        omega
      have hHalf : 2 ^ depth * bound ≤ 2147483647 := by
        omega
      have hLeftValues :
          residues (Halves.lower w) =
            valuesBelow (2 * node) (leftResidue node a) := by
        rw [residues_lower, hValues, valuesBelow_lower hNode]
      have hRightValues :
          residues (Halves.upper w) =
            valuesBelow (2 * node + 1)
              (rightResidue node a) := by
        rw [residues_upper, hValues, valuesBelow_upper hNode]
      refine Returns.bind
        (ih (level + 1) (2 * node) (2 * mirror + 1)
          (opposite_even hOpposite) (by omega) hHalf
          (Halves.lower w) hWithin.lower _ hLeftValues) ?_
      rintro left ⟨hLeft, hLeftResidues⟩
      refine Returns.bind
        (ih (level + 1) (2 * node + 1) (2 * mirror)
          (opposite_odd hOpposite) (by omega) hHalf
          (Halves.upper w) hWithin.upper _ hRightValues) ?_
      rintro right ⟨hRight, hRightResidues⟩
      rw [root_eq_ok (hOpposite.mirror_lt hBelow), ok_bind]
      rw [← hTwice] at hBound
      refine Returns.bind
        (add_returns hLeft hRight hBound) ?_
      rintro lo ⟨_, hLo, hLoResidues⟩
      refine Returns.bind
        (sub_returns hLeft hRight hBound) ?_
      rintro difference ⟨_, hDifference, hDifferenceResidues⟩
      have hRoot :
          Word.Within 4190208 (-Field.scaledRoot mirror) := by
        have h := scaledRoot_within mirror
        unfold Word.Within
        omega
      refine Returns.bind
        (Entries.montgomeryMul_returns hRoot
          (hDifference.mono hBound) (by decide)) ?_
      rintro hi ⟨hHi, hHiResidues⟩
      rw [← hTwice]
      refine returns_ok ⟨?_, ?_⟩
      · apply within_join hLo
        apply hHi.mono
        have hPow : (1 : Int) ≤ 2 ^ depth := by
          exact_mod_cast Nat.one_le_two_pow
        nlinarith
      · have hInverse :=
          intCast_neg_scaledRoot hOpposite hBelow
        apply residues_join_eq
        · rw [hLoResidues, hLeftResidues, hRightResidues,
            sum_residues, ← pow_succ]
          rfl
        · rw [hHiResidues, hDifferenceResidues, hLeftResidues,
            hRightResidues, difference_residues, smul_smul,
            ← pow_succ, mul_left_comm, hInverse, mul_one]
          rfl

end Transform

------------------------------------------------------------
-- Transforms of Polynomials
------------------------------------------------------------

namespace Poly

open Outcome Entries Transform Negacyclic

variable {ε : Type}

/- The residues of the coefficients. -/
def element
    (p : Poly) : Element Residue :=
  residues p

/- A transform returns the coordinates of its polynomial. -/
theorem transform_returns
    {p : Poly}
    (h : Within (Field.q - 1) p) :
    Returns (p.transform : Outcome ε Poly) fun w =>
      Within (9 * (Field.q - 1)) w
        ∧ w.element = coordinates p.element := by
  have hForward :=
    forward_returns (ε := ε) 8 1 (Field.q - 1) (by decide)
      (by decide) (by decide) (by decide) p h
  refine hForward.mono ?_
  rintro w ⟨hRange, hValues⟩
  refine ⟨hRange.mono (by decide), ?_⟩
  rw [coordinates_eq_valuesBelow]
  exact hValues

/- The scale undoes eight factors of two. -/
theorem inverseScale_factor :
    Residue.factorInverse
        * ((Field.inverseScale : Residue) * 2 ^ 8) =
      Residue.factor := by
  have hPow : (2 ^ 8 : Residue) = 256 := by
    norm_num
  rw [hPow, mul_comm _ 256, Residue.intCast_inverseScale,
    ← mul_assoc, Residue.factorInverse_mul_factor, one_mul]

/-
  The inverse transform of coordinates returns the element,
  scaled by the Montgomery factor, in a range that is a little
  more than half as wide as the modulus on either side.
-/
theorem inverseTransform_returns
    {w : Poly}
    (h : Within (Field.q - 1) w) :
    Returns (w.inverseTransform : Outcome ε Poly) fun p =>
      Within 4211198 p
        ∧ p.element =
          Residue.factor • ofCoordinates w.element := by
  have hValues :
      residues (n := 2 ^ 8) w =
        valuesBelow 1 (ofCoordinates w.element) := by
    rw [← coordinates_eq_valuesBelow,
      coordinates_ofCoordinates]
    rfl
  have hBackward :=
    backward_returns (ε := ε) 8 0 1 1 (Field.q - 1)
      opposite_one (by decide) (by decide) (by decide) w h _
      hValues
  refine Returns.bind hBackward ?_
  rintro v ⟨hRange, hResidues⟩
  have hEntry :
      ∀ i : Fin degree,
        Returns
          (Field.montgomeryMul Field.inverseScale v[i]
            : Outcome ε Int)
          fun r =>
            Word.Within 4211198 r
              ∧ (r : Residue) =
                Residue.factorInverse
                  * (Field.inverseScale * v[i]) := by
    intro i
    apply Field.montgomeryMul_inverseScale_returns
    exact (hRange i).mono (by decide)
  refine (returns_mapEntries hEntry).mono ?_
  intro p hp
  refine ⟨fun i => (hp i).1, funext fun i => ?_⟩
  have hi :
      (v[i] : Residue) = 2 ^ 8 * ofCoordinates w.element i :=
    congrFun hResidues i
  have hEntryResidue :
      element p i =
        Residue.factorInverse * (Field.inverseScale * v[i]) :=
    (hp i).2
  rw [hEntryResidue, hi, Pi.smul_apply, smul_eq_mul,
    ← inverseScale_factor]
  ring

end Poly

end LatticeSignature
