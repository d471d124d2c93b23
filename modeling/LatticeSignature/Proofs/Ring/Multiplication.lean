import LatticeSignature.Proofs.ParameterSet
import LatticeSignature.Proofs.Ring.Products

/-
  The law of multiplication: polynomials and matrices that are
  multiplied by way of transforms have the residues of their
  schoolbook products over the integers.

  Main declarations:
    * `Negacyclic.castElement`
    * `Poly.TransformsTo`
    * `Poly.existsUnique_transformsTo`
    * `Poly.multiply`, `Poly.multiply_returns`
    * `Matrix.multiply`, `Matrix.multiply_elements`
    * `Matrix.multiply_returns`
    * `Poly.monomial`
    * `Transform.multiplication_law`
-/

------------------------------------------------------------
-- Residues of Integers
------------------------------------------------------------

namespace LatticeSignature

open Outcome Entries Transform Negacyclic

namespace Negacyclic

/- The residues of an element of integers. -/
def castElement
    (a : Element Int) : Element Residue :=
  fun i => (a i : Residue)

/- The residues of a product are the product of residues. -/
theorem castElement_product
    (a b : Element Int) :
    castElement (product a b) =
      product (castElement a) (castElement b) :=
  funext fun k => product_map (Int.castRingHom Residue) a b k

theorem castElement_apply
    {rows columns : Nat}
    (a : Fin rows → Fin columns → Element Int)
    (v : Fin columns → Element Int)
    (i : Fin rows) :
    castElement (apply a v i) =
      apply (fun i j => castElement (a i j))
        (fun j => castElement (v j)) i := by
  funext k
  simp only [castElement, apply, Finset.sum_apply, Int.cast_sum]
  apply Finset.sum_congr rfl
  intro j _
  exact congrFun (castElement_product (a i j) (v j)) k

end Negacyclic

namespace Poly

/- Integers are congruent when they have the same residues. -/
theorem element_eq_castElement_iff
    {r : Poly}
    {a : Element Int} :
    r.element = castElement a
      ↔ ∀ k : Fin degree, Field.Congruent r[k] (a k) := by
  rw [funext_iff]
  exact forall_congr' fun k => Residue.intCast_eq_iff _ _

------------------------------------------------------------
-- Elements of Transforms
------------------------------------------------------------

/-
  The transform of the polynomial has the residues of another
  one, coefficient by coefficient.
-/
def TransformsTo
    (a w : Poly) : Prop :=
  Returns (a.transform : Outcome Empty Poly) fun u =>
    ∀ k : Fin degree, Field.Congruent u[k] w[k]

theorem transformsTo_iff
    {a w : Poly}
    (ha : Within (Field.q - 1) a) :
    a.TransformsTo w ↔ coordinates a.element = w.element := by
  have hTransform := transform_returns (ε := Empty) ha
  constructor
  · rintro ⟨u, hOk, hSame⟩
    rw [← (hTransform.of_eq_ok hOk).2]
    exact element_eq_castElement_iff.2 hSame
  · intro h
    refine hTransform.mono ?_
    rintro u ⟨_, hElement⟩
    exact element_eq_castElement_iff.1 (hElement.trans h)

/- The polynomial of the least representatives of an element. -/
def ofElement
    (a : Element Residue) : Poly :=
  Vector.ofFn fun k => ((a k).val : Int)

theorem canonical_ofElement
    (a : Element Residue) :
    Canonical (ofElement a) := by
  intro k
  have hLt := (a k).val_lt
  have hEntry : (ofElement a)[k] = ((a k).val : Int) := by
    simp [ofElement]
  rw [hEntry]
  unfold Field.q
  omega

theorem element_ofElement
    (a : Element Residue) :
    (ofElement a).element = a := by
  funext k
  simp [element, residues, ofElement]

/- Least representatives are determined by their residues. -/
theorem eq_of_element_eq
    {a b : Poly}
    (ha : Canonical a)
    (hb : Canonical b)
    (hSame : a.element = b.element) :
    a = b := by
  apply Vector.ext
  intro k hk
  have hVal := congrArg ZMod.val (congrFun hSame ⟨k, hk⟩)
  have hak := ha.val_residues ⟨k, hk⟩
  have hbk := hb.val_residues ⟨k, hk⟩
  unfold element at hVal
  rw [hVal] at hak
  exact hak.symm.trans hbk

/-
  Every vector of coordinates is the transform of exactly one
  polynomial of least representatives.
-/
theorem existsUnique_transformsTo
    (w : Poly) :
    ∃! a : Poly, Canonical a ∧ a.TransformsTo w := by
  refine ⟨ofElement (ofCoordinates w.element),
    ⟨canonical_ofElement _, ?_⟩, ?_⟩
  · rw [transformsTo_iff (canonical_ofElement _).within,
      element_ofElement, coordinates_ofCoordinates]
  · rintro a ⟨hCanonical, hTransforms⟩
    rw [transformsTo_iff hCanonical.within] at hTransforms
    apply eq_of_element_eq hCanonical (canonical_ofElement _)
    rw [element_ofElement, ← hTransforms,
      ofCoordinates_coordinates]

------------------------------------------------------------
-- Products of Polynomials
------------------------------------------------------------

variable {ε : Type}

/- Multiply two polynomials by way of their transforms. -/
def multiply
    (a b : Poly) : Outcome ε Poly := do
  let x ← a.transform
  let y ← b.transform
  let product ← x.pointwise y
  product.inverseTransform

theorem multiply_returns
    {a b : Poly}
    (ha : Within (Field.q - 1) a)
    (hb : Within (Field.q - 1) b) :
    Returns (a.multiply b : Outcome ε Poly) fun r =>
      ∀ k : Fin degree,
        Field.Congruent r[k] (product (toFun a) (toFun b) k) := by
  refine (transform_returns ha).bind ?_
  intro x hx
  refine (transform_returns hb).bind ?_
  intro y hy
  refine (pointwise_returns hx hy).bind ?_
  intro w hw
  refine (inverseTransform_of_isProduct hw).mono ?_
  rintro r ⟨_, hElement⟩
  apply element_eq_castElement_iff.1
  rw [hElement, castElement_product]
  rfl

end Poly

------------------------------------------------------------
-- Products of Matrices
------------------------------------------------------------

namespace Matrix

variable {ε : Type}
variable {rows columns : Nat}

/-
  Multiply a vector by a matrix of transforms, by way of the
  transform of the vector.
-/
def multiply
    (m : Matrix rows columns)
    (v : PolyVec columns) : Outcome ε (PolyVec rows) := do
  let x ← v.transform
  let product ← m.apply x
  let reduced ← product.reduce
  reduced.inverseTransform

/- A computation that begins with such a product. -/
theorem multiply_bind
    {β : Type}
    (m : Matrix rows columns)
    (v : PolyVec columns)
    (f : PolyVec rows → Outcome ε β) :
    (do
      let x ← v.transform
      let product ← m.apply x
      let reduced ← product.reduce
      let plain ← reduced.inverseTransform
      f plain) =
      m.multiply v >>= f := by
  simp only [multiply, bind_assoc]

/- The product is that of the elements, in small words. -/
theorem multiply_elements
    {m : Matrix rows columns}
    {v : PolyVec columns}
    (hm : m.Canonical)
    (hv : v.Within (Field.q - 1))
    (hSize : columns ≤ 8) :
    Returns (m.multiply v : Outcome ε (PolyVec rows)) fun r =>
      r.Within 4211198
        ∧ r.elements =
          Negacyclic.apply m.elements v.elements := by
  refine (PolyVec.transform_returns hv).bind ?_
  intro x hx
  refine (apply_returns hm hx hSize).bind ?_
  intro product hProduct
  refine (PolyVec.reduce_returns_isProduct hProduct
    (by decide)).bind ?_
  intro reduced hReduced
  exact PolyVec.inverseTransform_of_isProduct hReduced

/- The elements of a matrix are those that transform to it. -/
theorem elements_eq_castElement
    {m : Matrix rows columns}
    {a : Fin rows → Fin columns → Poly}
    (ha :
      ∀ i j,
        Within (Field.q - 1) (a i j)
          ∧ (a i j).TransformsTo m[i][j]) :
    m.elements = fun i j => castElement (toFun (a i j)) := by
  funext i j
  rcases ha i j with ⟨hRange, hTransforms⟩
  rw [Poly.transformsTo_iff hRange] at hTransforms
  rw [elements, ← hTransforms, ofCoordinates_coordinates]
  rfl

theorem multiply_returns
    {m : Matrix rows columns}
    {v : PolyVec columns}
    {a : Fin rows → Fin columns → Poly}
    (hm : m.Canonical)
    (hv : v.Within (Field.q - 1))
    (hSize : columns ≤ 8)
    (ha :
      ∀ i j,
        Within (Field.q - 1) (a i j)
          ∧ (a i j).TransformsTo m[i][j]) :
    Returns (m.multiply v : Outcome ε (PolyVec rows)) fun r =>
      ∀ (i : Fin rows) (k : Fin degree),
        Field.Congruent r[i][k]
          (Negacyclic.apply (fun i j => toFun (a i j))
            v.integers i k) := by
  refine (multiply_elements hm hv hSize).mono ?_
  rintro r ⟨_, hElements⟩ i
  apply Poly.element_eq_castElement_iff.1
  rw [castElement_apply, ← elements_eq_castElement ha]
  exact congrFun hElements i

end Matrix

------------------------------------------------------------
-- Powers of the Variable
------------------------------------------------------------

/- A power of `X` moves the coefficients up, and wraps them. -/
theorem Negacyclic.product_single
    {R : Type}
    [CommRing R]
    (i : Fin degree)
    (b : Element R)
    (k : Fin degree) :
    product (Pi.single i 1) b k =
      (if i.val ≤ k.val then 1 else -1) * b (k - i) := by
  rw [product_eq_sum, Finset.sum_eq_single i]
  · rw [Pi.single_eq_same, one_mul]
  · intro j _ hNe
    rw [Pi.single_eq_of_ne hNe, zero_mul, mul_zero]
  · intro hAbsent
    exact absurd (Finset.mem_univ i) hAbsent

namespace Poly

/- The power of `X` with the given exponent. -/
def monomial
    (i : Fin degree) : Poly :=
  Vector.ofFn fun k => if k = i then 1 else 0

theorem toFun_monomial
    (i : Fin degree) :
    toFun (monomial i) = Pi.single i 1 := by
  funext k
  rw [Pi.single_apply]
  simp [toFun, monomial]

theorem within_monomial
    (i : Fin degree) :
    Within (Field.q - 1) (monomial i) := by
  intro k
  have hEntry : (monomial i)[k] = if k = i then 1 else 0 := by
    simp [monomial]
  rw [hEntry]
  unfold Word.Within Field.q
  split <;> decide

/- The polynomial whose coefficients are all one. -/
def ones : Poly :=
  Vector.ofFn fun _ => 1

/- The polynomial one has the value one everywhere. -/
theorem transformsTo_ones :
    (monomial 0).TransformsTo ones := by
  rw [transformsTo_iff (within_monomial 0)]
  funext i
  have hElement :
      (monomial 0).element = fun k => if k = 0 then 1 else 0 := by
    funext k
    simp [element, residues, monomial]
  rw [hElement, coordinates, valueAt, Finset.sum_eq_single 0]
  · simp [element, residues, ones]
  · intro k _ hNe
    rw [if_neg hNe, zero_mul]
  · intro hAbsent
    exact absurd (Finset.mem_univ 0) hAbsent

end Poly

------------------------------------------------------------
-- Law of Multiplication
------------------------------------------------------------

namespace Transform

variable {ε : Type}

/-
  Transforms multiply polynomials as the schoolbook product
  does.  An entry of a matrix is the transform of one
  polynomial, and the rows of a product add up the schoolbook
  products with these.
-/
theorem multiplication_law :
    (∀ a b : Poly,
      Within (Field.q - 1) a → Within (Field.q - 1) b →
        Returns (a.multiply b : Outcome ε Poly) fun r =>
          ∀ k : Fin degree,
            Field.Congruent r[k]
              (product (toFun a) (toFun b) k))
      ∧ (∀ w : Poly,
        ∃! a : Poly, Canonical a ∧ a.TransformsTo w)
      ∧ ∀ (p : ParameterSet)
          (m : Matrix p.rows p.columns)
          (v : PolyVec p.columns)
          (a : Fin p.rows → Fin p.columns → Poly),
        m.Canonical →
          v.Within (Field.q - 1) →
          (∀ i j,
            Within (Field.q - 1) (a i j)
              ∧ (a i j).TransformsTo m[i][j]) →
          Returns (m.multiply v : Outcome ε (PolyVec p.rows))
            fun r =>
              ∀ (i : Fin p.rows) (k : Fin degree),
                Field.Congruent r[i][k]
                  ((∑ j, product (toFun (a i j)) (toFun v[j])) k) := by
  refine ⟨?_, Poly.existsUnique_transformsTo, ?_⟩
  · intro a b ha hb
    exact Poly.multiply_returns ha hb
  · intro p m v a hm hv ha
    exact Matrix.multiply_returns hm hv p.columns_le ha

/-
  `X^255 * X` is `-1`, and a matrix of ones adds up the four
  polynomials of a vector in each row.
-/
theorem multiplication_law_of_monomials :
    (Returns
        ((Poly.monomial 255).multiply (Poly.monomial 1)
          : Outcome Empty Poly)
        fun r => Field.Congruent r[(0 : Fin degree)] (-1))
      ∧ Returns
        (Matrix.multiply
          (Vector.ofFn fun _ => Vector.ofFn fun _ => Poly.ones)
          (Vector.ofFn fun _ : Fin ParameterSet.mldsa44.columns =>
            Poly.monomial 1)
          : Outcome Empty
            (PolyVec ParameterSet.mldsa44.rows))
        fun r =>
          ∀ i : Fin ParameterSet.mldsa44.rows,
            Field.Congruent r[i][(1 : Fin degree)] 4 := by
  have hOne :
      ∀ i k : Fin degree,
        toFun (Poly.monomial i) k = if k = i then 1 else 0 := by
    intro i k
    rw [Poly.toFun_monomial, Pi.single_apply]
  constructor
  · have hLaw :=
      multiplication_law (ε := Empty).1 _ _
        (Poly.within_monomial 255) (Poly.within_monomial 1)
    refine hLaw.mono fun r hr => ?_
    have hZero := hr 0
    rw [Poly.toFun_monomial, product_single, hOne] at hZero
    exact hZero
  · have hLaw :=
      multiplication_law (ε := Empty).2.2 .mldsa44
        (Vector.ofFn fun _ => Vector.ofFn fun _ => Poly.ones)
        (Vector.ofFn fun _ => Poly.monomial 1)
        (fun _ _ => Poly.monomial 0)
        (by
          intro i j k
          simp [Poly.ones, Field.q])
        (by
          intro j
          simpa using Poly.within_monomial 1)
        (by
          intro i j
          refine ⟨Poly.within_monomial 0, ?_⟩
          simpa using Poly.transformsTo_ones)
    refine hLaw.mono fun r hr i => ?_
    have hSum := hr i 1
    simp only [Finset.sum_apply, Poly.toFun_monomial,
      product_single, getElem_index, Vector.getElem_ofFn] at hSum
    have hColumns : (ParameterSet.mldsa44.columns : Int) = 4 := rfl
    simpa [hColumns] using hSum

end Transform

end LatticeSignature
