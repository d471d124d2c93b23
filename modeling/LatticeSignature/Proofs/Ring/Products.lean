import LatticeSignature.Proofs.Ring.Transform
import LatticeSignature.Ring.PolyVec
import Mathlib.Algebra.Module.Pi

/-
  Products of polynomials and matrices by way of transforms.
  A polynomial of words stands for a ring element directly, or
  for the transform of one, or for a product of transforms,
  which carries the inverse of the Montgomery factor.

  Main declarations:
    * `Poly.IsTransform`, `Poly.IsProduct`
    * `Poly.pointwise_returns`
    * `Poly.inverseTransform_of_isProduct`
    * `PolyVec.Within`, `PolyVec.elements`
    * `PolyVec.inner_returns`
    * `Matrix.elements`
    * `Matrix.apply_returns`
-/

------------------------------------------------------------
-- Transforms and Products of Polynomials
------------------------------------------------------------

namespace LatticeSignature

open Outcome Entries Transform Negacyclic

namespace Poly

variable {ε : Type}

/- The polynomial holds the coordinates of an element. -/
def IsTransform
    (w : Poly)
    (a : Element Residue) : Prop :=
  Within (9 * (Field.q - 1)) w ∧ w.element = coordinates a

/-
  The polynomial holds the coordinates of an element, divided
  by the Montgomery factor.
-/
def IsProduct
    (bound : Int)
    (w : Poly)
    (a : Element Residue) : Prop :=
  Within bound w
    ∧ w.element = Residue.factorInverse • coordinates a

/- Products of transforms are products of the elements. -/
theorem pointwise_returns
    {p r : Poly}
    {a b : Element Residue}
    (hp : IsTransform p a)
    (hr : IsTransform r b) :
    Returns (pointwise p r : Outcome ε Poly) fun w =>
      IsProduct (Field.q - 1) w (product a b) := by
  rcases hp with ⟨hpRange, hpElement⟩
  rcases hr with ⟨hrRange, hrElement⟩
  have hEntry :
      ∀ i : Fin degree,
        Returns (Field.montgomeryMul p[i] r[i] : Outcome ε Int)
          fun x =>
            Word.Within (Field.q - 1) x
              ∧ (x : Residue) =
                Residue.factorInverse * (p[i] * r[i]) :=
    fun i =>
      Field.montgomeryMul_returns
        (Word.within_mul (hpRange i) (hrRange i)) (by decide)
  refine (returns_zipEntries hEntry).mono ?_
  intro w hw
  refine ⟨fun i => (hw i).1, funext fun i => ?_⟩
  have hpi : (p[i] : Residue) = coordinates a i :=
    congrFun hpElement i
  have hri : (r[i] : Residue) = coordinates b i :=
    congrFun hrElement i
  rw [coordinates_product]
  change (w[i] : Residue) = _
  rw [(hw i).2, hpi, hri]
  rfl

/- A running sum of products takes in one product more. -/
theorem accumulate_returns
    {bound : Int}
    {sum p r : Poly}
    {x a b : Element Residue}
    (hSum : IsProduct bound sum x)
    (hp : IsTransform p a)
    (hr : IsTransform r b)
    (hBound : bound + (Field.q - 1) ≤ 2147483647) :
    Returns (accumulate sum p r : Outcome ε Poly) fun w =>
      IsProduct (bound + (Field.q - 1)) w
        (x + product a b) := by
  rcases pointwise_returns (ε := ε) hp hr with
    ⟨product', hOk, hRange, hElement⟩
  have hEntry :
      ∀ i : Fin degree,
        Returns
          (do
            let y ← Field.montgomeryMul p[i] r[i]
            Word.add32 sum[i] y : Outcome ε Int)
          fun y =>
            Word.Within (bound + (Field.q - 1)) y
              ∧ y = sum[i] + product'[i] := by
    intro i
    have hProduct :=
      (zipEntries_eq_ok_iff _ _ _ _).1 hOk i
    rw [hProduct]
    have hi := hSum.1 i
    have hi' := hRange i
    refine
      ⟨sum[i] + product'[i], Word.add32_eq_ok ?_, ?_, rfl⟩ <;>
    · unfold Word.Within at *
      omega
  refine (returns_tabulate hEntry).mono ?_
  intro w hw
  refine ⟨fun i => (hw i).1, ?_⟩
  have hResidues :
      element w = element sum + element product' := by
    funext i
    change (w[i] : Residue) = (sum[i] : Residue) + product'[i]
    rw [(hw i).2, Int.cast_add]
  rw [hResidues, hSum.2, hElement, coordinates_add, smul_add]

/- The empty sum. -/
theorem isProduct_zero :
    IsProduct 0 zero 0 := by
  have hEntry : ∀ i : Fin degree, zero[i] = 0 := by
    intro i
    simp [zero]
  constructor
  · intro i
    rw [hEntry i]
    unfold Word.Within
    omega
  · funext i
    change (zero[i] : Residue) = _
    rw [hEntry i]
    simp [coordinates, valueAt]

/- A difference of products belongs to that of the elements. -/
theorem sub_returns_isProduct
    {bound bound' : Int}
    {p r : Poly}
    {a b : Element Residue}
    (hp : IsProduct bound p a)
    (hr : IsProduct bound' r b)
    (hBound : bound + bound' ≤ 2147483647) :
    Returns (sub p r : Outcome ε Poly) fun w =>
      IsProduct (bound + bound') w (a - b) := by
  refine (sub_returns hp.1 hr.1 hBound).mono ?_
  rintro w ⟨_, hRange, hResidues⟩
  refine ⟨hRange, hResidues.trans ?_⟩
  rw [coordinates_sub, smul_sub, ← hp.2, ← hr.2]
  rfl

/- A reduced product stands for the same element. -/
theorem reduce_returns_isProduct
    {bound : Int}
    {p : Poly}
    {a : Element Residue}
    (hp : IsProduct bound p a)
    (hBound : bound ≤ 2143289343) :
    Returns (reduce p : Outcome ε Poly) fun w =>
      IsProduct (Field.q - 1) w a := by
  refine (Entries.reduce_returns (hp.1.mono hBound)).mono ?_
  rintro w ⟨hRange, hResidues⟩
  exact ⟨hRange.mono (by decide), hResidues.trans hp.2⟩

/- The inverse transform of a product returns the product. -/
theorem inverseTransform_of_isProduct
    {w : Poly}
    {a : Element Residue}
    (hw : IsProduct (Field.q - 1) w a) :
    Returns (w.inverseTransform : Outcome ε Poly) fun p =>
      Within 4211198 p ∧ element p = a := by
  refine (inverseTransform_returns hw.1).mono ?_
  rintro p ⟨hRange, hElement⟩
  refine ⟨hRange, ?_⟩
  rw [hElement, hw.2, ← coordinates_smul,
    ofCoordinates_coordinates, smul_smul, mul_comm,
    Residue.factorInverse_mul_factor, one_smul]

end Poly

------------------------------------------------------------
-- Vectors
------------------------------------------------------------

namespace PolyVec

variable {ε : Type}
variable {n : Nat}

/- All coefficients have at most the given magnitude. -/
def Within
    (bound : Int)
    (v : PolyVec n) : Prop :=
  ∀ i : Fin n, Entries.Within bound v[i]

instance
    (bound : Int)
    (v : PolyVec n) :
    Decidable (Within bound v) := by
  unfold Within
  infer_instance

/- A magnitude may be estimated more coarsely. -/
theorem Within.mono
    {bound bound' : Int}
    {v : PolyVec n}
    (h : Within bound v)
    (hLe : bound ≤ bound') :
    Within bound' v :=
  fun i => (h i).mono hLe

/- All coefficients are least representatives. -/
def Canonical
    (v : PolyVec n) : Prop :=
  ∀ i : Fin n, Entries.Canonical v[i]

/- The ring elements of a vector. -/
def elements
    (v : PolyVec n) : Fin n → Element Residue :=
  fun i => Poly.element v[i]

/- The coefficients of a vector as integers. -/
def integers
    (v : PolyVec n) : Fin n → Element Int :=
  fun i => toFun v[i]

/- The vector holds transforms of given elements. -/
def IsTransform
    (w : PolyVec n)
    (a : Fin n → Element Residue) : Prop :=
  ∀ i : Fin n, Poly.IsTransform w[i] (a i)

/- The vector holds products that make given elements. -/
def IsProduct
    (bound : Int)
    (w : PolyVec n)
    (a : Fin n → Element Residue) : Prop :=
  ∀ i : Fin n, Poly.IsProduct bound w[i] (a i)

/- All polynomials of a vector are transformed. -/
theorem transform_returns
    {v : PolyVec n}
    (h : Within (Field.q - 1) v) :
    Returns (v.transform : Outcome ε (PolyVec n)) fun w =>
      IsTransform w v.elements :=
  returns_mapEntries fun i => Poly.transform_returns (h i)

/- All products of a vector are transformed back. -/
theorem inverseTransform_of_isProduct
    {w : PolyVec n}
    {a : Fin n → Element Residue}
    (h : IsProduct (Field.q - 1) w a) :
    Returns (w.inverseTransform : Outcome ε (PolyVec n))
      fun v => Within 4211198 v ∧ elements v = a := by
  have hEntries :=
    returns_mapEntries (ε := ε) fun i : Fin n =>
      Poly.inverseTransform_of_isProduct (ε := ε) (h i)
  refine hEntries.mono ?_
  intro v hv
  exact ⟨fun i => (hv i).1, funext fun i => (hv i).2⟩

/- All products of a vector are reduced. -/
theorem reduce_returns_isProduct
    {bound : Int}
    {w : PolyVec n}
    {a : Fin n → Element Residue}
    (h : IsProduct bound w a)
    (hBound : bound ≤ 2143289343) :
    Returns (w.reduce : Outcome ε (PolyVec n)) fun u =>
      IsProduct (Field.q - 1) u a :=
  returns_mapEntries fun i =>
    Poly.reduce_returns_isProduct (h i) hBound

/- Vectors of products are subtracted. -/
theorem sub_returns_isProduct
    {bound bound' : Int}
    {v w : PolyVec n}
    {a b : Fin n → Element Residue}
    (hv : IsProduct bound v a)
    (hw : IsProduct bound' w b)
    (hBound : bound + bound' ≤ 2147483647) :
    Returns (v.sub w : Outcome ε (PolyVec n)) fun u =>
      IsProduct (bound + bound') u (a - b) :=
  returns_zipEntries fun i =>
    Poly.sub_returns_isProduct (hv i) (hw i) hBound

/- A polynomial is multiplied with every entry. -/
theorem scale_returns
    {v : PolyVec n}
    {c : Poly}
    {a : Fin n → Element Residue}
    {b : Element Residue}
    (hv : IsTransform v a)
    (hc : Poly.IsTransform c b) :
    Returns (v.scale c : Outcome ε (PolyVec n)) fun w =>
      IsProduct (Field.q - 1) w fun i => product b (a i) :=
  returns_mapEntries fun i => Poly.pointwise_returns hc (hv i)

/- A sum of vectors is exact while its words have room. -/
theorem add_returns
    {bound bound' : Int}
    {v w : PolyVec n}
    (hv : Within bound v)
    (hw : Within bound' w)
    (hBound : bound + bound' ≤ 2147483647) :
    Returns (v.add w : Outcome ε (PolyVec n)) fun u =>
      integers u = integers v + integers w
        ∧ Within (bound + bound') u
        ∧ elements u = elements v + elements w := by
  have hEntries :=
    returns_zipEntries (ε := ε) fun i : Fin n =>
      Entries.add_returns (hv i) (hw i) hBound
  refine hEntries.mono ?_
  intro u hu
  exact ⟨funext fun i => (hu i).1, fun i => (hu i).2.1,
    funext fun i => (hu i).2.2⟩

/- So is a difference. -/
theorem sub_returns
    {bound bound' : Int}
    {v w : PolyVec n}
    (hv : Within bound v)
    (hw : Within bound' w)
    (hBound : bound + bound' ≤ 2147483647) :
    Returns (v.sub w : Outcome ε (PolyVec n)) fun u =>
      integers u = integers v - integers w
        ∧ Within (bound + bound') u
        ∧ elements u = elements v - elements w := by
  have hEntries :=
    returns_zipEntries (ε := ε) fun i : Fin n =>
      Entries.sub_returns (hv i) (hw i) hBound
  refine hEntries.mono ?_
  intro u hu
  exact ⟨funext fun i => (hu i).1, fun i => (hu i).2.1,
    funext fun i => (hu i).2.2⟩

/- Small vectors are their own representatives. -/
theorem reduce_eq_self
    {v : PolyVec n}
    (h : Within 4194303 v) :
    (v.reduce : Outcome ε (PolyVec n)) = .ok v := by
  rw [reduce, mapEntries_eq_ok_iff]
  exact fun i => Entries.reduce_eq_self (h i)

------------------------------------------------------------
-- Norms
------------------------------------------------------------

/- A norm is exceeded when a coefficient reaches it. -/
theorem exceedsNorm_eq_false_iff
    {v : PolyVec n}
    {bound : Int}
    (h : Within 2147483647 v)
    (hBound : bound ≤ (Field.q - 1) / 8) :
    v.exceedsNorm bound = false
      ↔ ∀ (i : Fin n) (k : Fin degree), |v[i][k]| < bound := by
  have hMagnitude :
      ∀ (i : Fin n) (k : Fin degree),
        Word.magnitude v[i][k] = |v[i][k]| := by
    intro i k
    rw [Word.magnitude_of_within (h i k)]
    split
    · rename_i hNegative
      exact (abs_of_neg hNegative).symm
    · rename_i hNonneg
      exact (abs_of_nonneg (not_lt.1 hNonneg)).symm
  have hSmall : ¬ bound > (Field.q - 1) / 8 := not_lt.2 hBound
  have hRow :
      ∀ i : Fin n,
        Poly.exceedsNorm v[i] bound = false
          ↔ ∀ k : Fin degree, |v[i][k]| < bound := by
    intro i
    rw [Poly.exceedsNorm, Bool.or_eq_false_iff,
      Vector.any_eq_false]
    simp only [decide_eq_false_iff_not, decide_eq_true_eq,
      hSmall, not_false_eq_true, true_and, ge_iff_le, not_le]
    constructor
    · intro hAll k
      rw [← hMagnitude i k]
      exact hAll k.val k.isLt
    · intro hAll k hk
      exact (hMagnitude i ⟨k, hk⟩).trans_lt (hAll ⟨k, hk⟩)
  rw [exceedsNorm, Vector.any_eq_false]
  simp only [Bool.not_eq_true]
  constructor
  · intro hAll i
    exact (hRow i).1 (hAll i.val i.isLt)
  · intro hAll i hi
    exact (hRow ⟨i, hi⟩).2 (hAll ⟨i, hi⟩)

/- Polynomials are lifted one by one. -/
theorem liftNegative_getElem
    (v : PolyVec n)
    (i : Fin n) :
    v.liftNegative[i] = Poly.liftNegative v[i] := by
  simp [liftNegative]

/- A lifted vector stands for the same elements. -/
theorem elements_liftNegative
    (v : PolyVec n) :
    v.liftNegative.elements = v.elements := by
  funext i
  rw [elements, liftNegative_getElem]
  exact residues_liftNegative v[i]

/- Words above `-q` are lifted into `[0, q)`. -/
theorem canonical_liftNegative
    {v : PolyVec n}
    (h : Within (Field.q - 1) v) :
    Canonical v.liftNegative := by
  intro i
  rw [liftNegative_getElem]
  exact Entries.canonical_liftNegative (h i)

------------------------------------------------------------
-- Inner Products
------------------------------------------------------------

/- A fold of accumulations adds all the products. -/
theorem foldlM_accumulate_returns
    {v w : Fin n → Poly}
    {a b : Fin n → Element Residue}
    (hv : ∀ i, Poly.IsTransform (v i) (a i))
    (hw : ∀ i, Poly.IsTransform (w i) (b i))
    (bound : Int)
    (hBound : bound + n * (Field.q - 1) ≤ 2147483647)
    (sum : Poly)
    (x : Element Residue)
    (hSum : Poly.IsProduct bound sum x) :
    Returns
      (Fin.foldlM n
        (fun sum i => Poly.accumulate sum (v i) (w i)) sum
        : Outcome ε Poly)
      fun u =>
        Poly.IsProduct (bound + n * (Field.q - 1)) u
          (x + ∑ i, product (a i) (b i)) := by
  induction n generalizing bound sum x with
  | zero =>
      rw [Fin.foldlM_zero]
      refine returns_ok ?_
      simpa using hSum
  | succ n ih =>
      have hCount :
          bound + (Field.q - 1) + n * (Field.q - 1) =
            bound + (n + 1 : Nat) * (Field.q - 1) := by
        push_cast
        ring
      have hRest : 0 ≤ (n : Int) * (Field.q - 1) :=
        mul_nonneg (Int.natCast_nonneg _) (by decide)
      rw [Fin.foldlM_succ]
      refine Returns.bind
        (Poly.accumulate_returns hSum (hv 0) (hw 0)
          (by omega)) ?_
      intro next hNext
      rw [Fin.sum_univ_succ, ← add_assoc, ← hCount]
      exact ih (fun i => hv i.succ) (fun i => hw i.succ) _
        (by omega) next _ hNext

/- Eight products are summed up without a reduction. -/
theorem inner_returns
    {v w : PolyVec n}
    {a b : Fin n → Element Residue}
    (hv : IsTransform v a)
    (hw : IsTransform w b)
    (hSize : n ≤ 8) :
    Returns (v.inner w : Outcome ε Poly) fun u =>
      Poly.IsProduct (8 * (Field.q - 1)) u
        (∑ i, product (a i) (b i)) := by
  have hBound : (n : Int) * (Field.q - 1) ≤ 8 * (Field.q - 1) :=
    mul_le_mul_of_nonneg_right (by omega) (by decide)
  have hMax : 8 * (Field.q - 1) ≤ 2147483647 := by decide
  have hFold :=
    foldlM_accumulate_returns (ε := ε) hv hw 0 (by omega) _ _
      Poly.isProduct_zero
  refine hFold.mono ?_
  rintro u ⟨hRange, hElement⟩
  rw [zero_add] at hRange hElement
  exact ⟨hRange.mono hBound, hElement⟩

end PolyVec

------------------------------------------------------------
-- Matrices
------------------------------------------------------------

namespace Matrix

variable {ε : Type}
variable {rows columns : Nat}

/- All entries are least representatives. -/
def Canonical
    (m : Matrix rows columns) : Prop :=
  ∀ i : Fin rows, PolyVec.Canonical m[i]

/-
  The ring elements of a transformed matrix: those whose
  coordinates the entries are.
-/
def elements
    (m : Matrix rows columns) :
    Fin rows → Fin columns → Element Residue :=
  fun i j => ofCoordinates (Poly.element m[i][j])

/- Every polynomial of canonical words is a transform. -/
theorem isTransform_elements
    {m : Matrix rows columns}
    (h : Canonical m)
    (i : Fin rows) :
    PolyVec.IsTransform m[i] (m.elements i) := by
  intro j
  refine ⟨(h i j).within.mono (by decide), ?_⟩
  rw [elements, coordinates_ofCoordinates]

/- A matrix of transforms is applied as a matrix of elements. -/
theorem apply_returns
    {m : Matrix rows columns}
    {v : PolyVec columns}
    {a : Fin columns → Element Residue}
    (hm : Canonical m)
    (hv : PolyVec.IsTransform v a)
    (hSize : columns ≤ 8) :
    Returns (m.apply v : Outcome ε (PolyVec rows)) fun w =>
      PolyVec.IsProduct (8 * (Field.q - 1)) w
        (Negacyclic.apply m.elements a) := by
  have hRow :
      ∀ i : Fin rows,
        Returns (PolyVec.inner m[i] v : Outcome ε Poly) fun u =>
          Poly.IsProduct (8 * (Field.q - 1)) u
            (∑ j, product (m.elements i j) (a j)) :=
    fun i =>
      PolyVec.inner_returns (isTransform_elements hm i) hv hSize
  exact
    returns_mapEntries (f := (PolyVec.inner · v)) (v := m) hRow

end Matrix

end LatticeSignature
