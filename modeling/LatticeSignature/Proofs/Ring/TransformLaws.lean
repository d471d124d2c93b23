import LatticeSignature.Proofs.Ring.Multiplication
import LatticeSignature.Proofs.Ring.Network.Backward
import LatticeSignature.Proofs.Ring.Network.Forward

/-
  The laws of the transforms, which hold for the networks of
  butterflies too: what they compute, that they undo each
  other, and how large their words are.

  Main declarations:
    * `Field.testBit_bitReverse`
    * `Network.forward_evaluates`
    * `Poly.fromMontgomery_toMontgomery`
    * `Poly.transforms_cancel`
    * `Network.transforms_in_range`
-/

------------------------------------------------------------
-- Evaluation
------------------------------------------------------------

namespace LatticeSignature

open Outcome Access Entries Transform Negacyclic

/- The bits of a number change places with each other. -/
theorem Field.testBit_bitReverse
    {width place : Nat}
    (n : Nat)
    (h : place < width) :
    (bitReverse width n).testBit place =
      n.testBit (width - 1 - place) := by
  induction width generalizing n with
  | zero => omega
  | succ width ih =>
      rw [bitReverse,
        Nat.testBit_two_pow_mul_add _ (bitReverse_lt width _)]
      split
      · rename_i hLow
        have hPlace :
            width + 1 - 1 - place = width - 1 - place + 1 := by
          omega
        rw [ih _ hLow, hPlace, Nat.testBit_succ]
      · have hLast : place = width := by omega
        subst hLast
        rw [Nat.sub_self, Nat.add_sub_cancel, Nat.sub_self]
        simp

namespace Poly

variable {ε : Type}

/- A coordinate is a sum of powers of the root of unity. -/
theorem congruent_of_coordinates
    {p w : Poly}
    (h : w.element = coordinates p.element)
    (i : Fin degree) :
    Field.Congruent w[i]
      (∑ j : Fin degree,
        p[j]
          * 1753 ^ ((2 * Field.bitReverse 8 i.val + 1) * j.val)) := by
  rw [← Residue.intCast_eq_iff, Int.cast_sum]
  refine (congrFun h i).trans ?_
  unfold coordinates valueAt
  apply Finset.sum_congr rfl
  intro j _
  have hRoot : ((1753 : Int) : Residue) = zeta := rfl
  rw [Int.cast_mul, Int.cast_pow, hRoot, pow_mul]
  rfl

end Poly

namespace Network

variable {ε : Type}

/-
  The transform evaluates a polynomial at the odd powers of
  the root of unity, in bit-reversed order.  The network that
  computes it reads every word of the table of roots once,
  but never the first one.
-/
theorem forward_evaluates
    {p : Poly}
    (h : Within (Field.q - 1) p) :
    ∃ (w : Poly) (reads : List Nat),
      Runs (forward p)
          (.ok (⟨w, 255, reads⟩ : State) : Outcome ε State)
        ∧ p.transform = (.ok w : Outcome ε Poly)
        ∧ (∀ i : Fin degree,
          Field.Congruent w[i]
            (∑ j : Fin degree,
              p[j]
                * 1753
                  ^ ((2 * Field.bitReverse 8 i.val + 1)
                    * j.val)))
        ∧ (∀ (i : Fin degree) (place : Nat), place < 8 →
          (Field.bitReverse 8 i.val).testBit place =
            i.val.testBit (7 - place))
        ∧ ∀ k,
          reads.count k = if 1 ≤ k ∧ k ≤ 255 then 1 else 0 := by
  rcases forward_runs (ε := ε) h with ⟨w, hRuns, hOk⟩
  have hValues :=
    ((Poly.transform_returns (ε := ε) h).of_eq_ok hOk).2
  refine ⟨w, _, hRuns, hOk,
    Poly.congruent_of_coordinates hValues, ?_, ?_⟩
  · intro i place hPlace
    exact Field.testBit_bitReverse i.val hPlace
  · intro k
    have hNodup : (List.range' 1 255).Nodup :=
      List.nodup_range'
    rw [hNodup.count]
    refine if_congr ?_ rfl rfl
    rw [List.mem_range'_1]
    omega

/- The values of `X` are the odd powers themselves. -/
theorem forward_evaluates_variable :
    ∃ (w : Poly) (reads : List Nat),
      Runs (forward (Poly.monomial 1))
          (.ok (⟨w, 255, reads⟩ : State) : Outcome Empty State)
        ∧ (∀ i : Fin degree,
          Field.Congruent w[i]
            (1753 ^ (2 * Field.bitReverse 8 i.val + 1)))
        ∧ reads.count 0 = 0
        ∧ reads.count 255 = 1 := by
  rcases forward_evaluates (ε := Empty)
      (Poly.within_monomial 1) with
    ⟨w, reads, hRuns, _, hValues, _, hReads⟩
  refine ⟨w, reads, hRuns, fun i => ?_, hReads 0, hReads 255⟩
  have hSum :
      (∑ j : Fin degree,
        (Poly.monomial 1)[j]
          * (1753 : Int)
            ^ ((2 * Field.bitReverse 8 i.val + 1) * j.val)) =
        1753 ^ (2 * Field.bitReverse 8 i.val + 1) := by
    rw [Finset.sum_eq_single 1]
    · simp [Poly.monomial]
    · intro j _ hNe
      simp [Poly.monomial, hNe]
    · intro hAbsent
      exact absurd (Finset.mem_univ 1) hAbsent
  rw [← hSum]
  exact hValues i

end Network

------------------------------------------------------------
-- Cancellation
------------------------------------------------------------

namespace Poly

variable {ε : Type}

theorem congruent_of_factor
    {u p : Poly}
    (h : u.element = Residue.factor • p.element)
    (k : Fin degree) :
    Field.Congruent u[k] (2 ^ 32 * p[k]) := by
  rw [← Residue.intCast_eq_iff, Int.cast_mul]
  have hFactor : ((2 ^ 32 : Int) : Residue) = Residue.factor := by
    rw [Residue.factor]
    norm_num
  rw [hFactor]
  exact congrFun h k

/- Small words are divided by the Montgomery factor. -/
theorem fromMontgomery_returns
    {u p : Poly}
    (h : Within (Field.q - 1) u)
    (hFactor : u.element = Residue.factor • p.element) :
    Returns (u.fromMontgomery : Outcome ε Poly) fun v =>
      Within (Field.q - 1) v ∧ v.element = p.element := by
  have hEntry :
      ∀ k : Fin degree,
        Returns (Field.montgomeryReduce u[k] : Outcome ε Int)
          fun r =>
            Word.Within (Field.q - 1) r
              ∧ (r : Residue) = p.element k := by
    intro k
    have hk : Word.Within (Field.q - 1) (1 * u[k]) := by
      rw [one_mul]
      exact h k
    have hOne :=
      Field.montgomeryMul_returns (ε := ε) hk (by decide)
    rw [Field.montgomeryMul_eq_reduce hk (by decide), one_mul]
      at hOne
    refine hOne.mono ?_
    rintro r ⟨hRange, hResidue⟩
    have hu : (u[k] : Residue) = Residue.factor * p.element k :=
      congrFun hFactor k
    refine ⟨hRange, ?_⟩
    rw [hResidue, hu, Int.cast_one, one_mul, ← mul_assoc,
      Residue.factorInverse_mul_factor, one_mul]
  refine (returns_mapEntries hEntry).mono ?_
  intro v hv
  exact ⟨fun k => (hv k).1, funext fun k => (hv k).2⟩

/- A polynomial takes the Montgomery factor, whatever its size. -/
theorem toMontgomery_returns
    {p : Poly}
    (h : ∀ k : Fin degree, Word.Fits32 p[k]) :
    Returns (p.toMontgomery : Outcome ε Poly) fun u =>
      Within (Field.q - 1) u
        ∧ u.element = Residue.factor • p.element := by
  refine
    (returns_mapEntries fun k =>
      Field.toMontgomery_returns (h k)).mono ?_
  intro u hu
  refine ⟨fun k => (hu k).1, funext fun k => ?_⟩
  have hResidue :=
    (Residue.intCast_eq_iff _ _).2 (hu k).2
  rw [Int.cast_mul, Residue.intCast_montgomeryOne] at hResidue
  exact hResidue

/- What is brought into Montgomery form is found again. -/
theorem fromMontgomery_toMontgomery
    {p : Poly}
    (h : ∀ k : Fin degree, Word.Fits32 p[k]) :
    Returns
      (do
        let u ← p.toMontgomery
        u.fromMontgomery : Outcome ε Poly)
      fun v =>
        Within (Field.q - 1) v ∧ v.element = p.element := by
  refine (toMontgomery_returns h).bind ?_
  rintro u ⟨hRange, hFactor⟩
  exact fromMontgomery_returns hRange hFactor

/- The representatives are the remainders. -/
theorem canonical_returns
    {v p : Poly}
    (h : Within 2143289343 v)
    (hSame : v.element = p.element) :
    Returns (v.canonical : Outcome ε Poly) fun least =>
      ∀ k : Fin degree, least[k] = p[k] % Field.q := by
  have hFits : ∀ k : Fin degree, Word.Fits32 v[k] :=
    fun k => ((h k).mono (by omega)).fits32
  have hUpper : ∀ k : Fin degree, v[k] ≤ 2143289343 :=
    fun k => (h k).2
  rw [canonical, Entries.canonical_eq_ok hFits hUpper]
  refine returns_ok fun k => ?_
  have hk : Field.Congruent v[k] p[k] :=
    (Residue.intCast_eq_iff _ _).1 (congrFun hSame k)
  rw [getElem_index, Vector.getElem_map]
  exact hk

/-
  The transforms undo each other, up to the Montgomery factor,
  which a Montgomery reduction takes away.
-/
theorem transforms_cancel
    {p : Poly}
    (h : Within (Field.q - 1) p) :
    Returns
        (do
          let w ← p.transform
          let reduced ← w.reduce
          reduced.inverseTransform : Outcome ε Poly)
        (fun u =>
          (∀ k : Fin degree,
            Field.Congruent u[k] (2 ^ 32 * p[k]))
            ∧ Returns
              (do
                let v ← u.fromMontgomery
                v.canonical : Outcome ε Poly)
              fun least =>
                ∀ k : Fin degree, least[k] = p[k] % Field.q)
      ∧ Returns
        (do
          let u ← p.inverseTransform
          u.transform : Outcome ε Poly)
        fun w =>
          ∀ k : Fin degree,
            Field.Congruent w[k] (2 ^ 32 * p[k]) := by
  constructor
  · refine (transform_returns h).bind ?_
    rintro w ⟨hw, hValues⟩
    refine (Entries.reduce_returns (hw.mono (by decide))).bind ?_
    rintro reduced ⟨hReduced, hSame⟩
    refine
      (inverseTransform_returns
        (hReduced.mono (by decide))).mono ?_
    rintro u ⟨hu, hElement⟩
    have hFactor : u.element = Residue.factor • p.element := by
      have hReducedElement : element reduced = element w := hSame
      rw [hElement, hReducedElement, hValues,
        ofCoordinates_coordinates]
    refine ⟨congruent_of_factor hFactor, ?_⟩
    refine
      (fromMontgomery_returns (hu.mono (by decide))
        hFactor).bind ?_
    rintro v ⟨hv, hPlain⟩
    exact canonical_returns (hv.mono (by decide)) hPlain
  · refine (inverseTransform_returns h).bind ?_
    rintro u ⟨hu, hElement⟩
    refine (transform_returns (hu.mono (by decide))).mono ?_
    rintro w ⟨_, hValues⟩
    apply congruent_of_factor
    rw [hValues, hElement, coordinates_smul,
      coordinates_ofCoordinates]

/- A power of `X` is found again as it was. -/
theorem transforms_cancel_monomial :
    Returns
      (do
        let w ← (monomial 1).transform
        let reduced ← w.reduce
        reduced.inverseTransform : Outcome Empty Poly)
      fun u =>
        Returns
          (do
            let v ← u.fromMontgomery
            v.canonical : Outcome Empty Poly)
          fun least => least = monomial 1 := by
  refine
    (transforms_cancel (within_monomial 1)).1.mono ?_
  rintro u ⟨_, hCanonical⟩
  refine hCanonical.mono ?_
  intro least hLeast
  apply Vector.ext
  intro k hk
  refine (hLeast ⟨k, hk⟩).trans ?_
  simp only [monomial, getElem_index, Vector.getElem_ofFn]
  split <;> rfl

end Poly

------------------------------------------------------------
-- Ranges
------------------------------------------------------------

namespace PolyVec

variable {ε : Type}
variable {n : Nat}

/-
  Small words that are added to an inverse transform leave
  room to lift what is negative.
-/
theorem lift_inverseTransform_returns
    {bound : Int}
    {w s : PolyVec n}
    (hw : w.Within (Field.q - 1))
    (hs : s.Within bound)
    (hBound : 4211198 + bound ≤ Field.q - 1) :
    Returns
      (do
        let u ← w.inverseTransform
        u.add s : Outcome ε (PolyVec n))
      fun t => t.liftNegative.Canonical := by
  have hInverse :
      Returns (w.inverseTransform : Outcome ε (PolyVec n))
        fun u => u.Within 4211198 :=
    returns_mapEntries fun i =>
      (Poly.inverseTransform_returns (hw i)).mono fun _ h => h.1
  refine hInverse.bind ?_
  intro u hu
  have hWord : 4211198 + bound ≤ 2147483647 :=
    hBound.trans (by decide)
  refine (add_returns hu hs hWord).mono ?_
  rintro t ⟨_, ht, _⟩
  exact canonical_liftNegative fun i => (ht i).mono hBound

end PolyVec

namespace Network

variable {ε : Type}

/-
  All words of the networks fit.  The words of a transform
  are less than nine times the modulus, and those of an
  inverse transform leave room for a small word.
-/
theorem transforms_in_range
    {p : Poly}
    (h : Within (Field.q - 1) p) :
    (∃ (w : Poly) (reads : List Nat),
      Runs (forward p)
          (.ok (⟨w, 255, reads⟩ : State) : Outcome ε State)
        ∧ p.transform = (.ok w : Outcome ε Poly)
        ∧ ∀ i : Fin degree, |w[i]| < 9 * Field.q)
      ∧ (∃ (u : Poly) (reads : List Nat),
        Runs (backward p)
            (.ok (⟨u, 1, reads⟩ : State) : Outcome ε State)
          ∧ p.inverseTransform = (.ok u : Outcome ε Poly)
          ∧ (∀ i : Fin degree,
            |u[i]| ≤ (Field.q - 1) / 2 + 2 ^ 15)
          ∧ ∀ (P : ParameterSet) (i : Fin degree),
            |u[i]| < Field.q - P.eta)
      ∧ ∀ (P : ParameterSet) (v s : PolyVec P.rows),
        v.Within (Field.q - 1) →
          s.Within P.eta →
          Returns
            (do
              let u ← v.inverseTransform
              u.add s : Outcome ε (PolyVec P.rows))
            fun t => t.liftNegative.Canonical := by
  refine ⟨?_, ?_, ?_⟩
  · rcases forward_runs (ε := ε) h with ⟨w, hRuns, hOk⟩
    have hRange :=
      ((Poly.transform_returns (ε := ε) h).of_eq_ok hOk).1
    refine ⟨w, _, hRuns, hOk, fun i => ?_⟩
    have hi : |w[i]| ≤ 9 * (Field.q - 1) := abs_le.2 (hRange i)
    unfold Field.q at *
    omega
  · rcases backward_runs (ε := ε) h with ⟨u, hRuns, hOk⟩
    have hRange :=
      ((Poly.inverseTransform_returns (ε := ε) h).of_eq_ok
        hOk).1
    have hAbs : ∀ i : Fin degree, |u[i]| ≤ 4211198 :=
      fun i => abs_le.2 (hRange i)
    refine ⟨u, _, hRuns, hOk, fun i => ?_, fun P i => ?_⟩
    · exact (hAbs i).trans (by decide)
    · have hi := hAbs i
      have hEta := P.eta_le
      unfold Field.q
      omega
  · intro P v s hv hs
    have hEta := P.eta_le
    refine PolyVec.lift_inverseTransform_returns hv hs ?_
    unfold Field.q
    omega

/- The largest words that a network takes stay in range. -/
theorem largest_words_in_range :
    (∃ (w : Poly) (reads : List Nat),
      Runs (forward (Vector.replicate degree (Field.q - 1)))
          (.ok (⟨w, 255, reads⟩ : State) : Outcome Empty State)
        ∧ ∀ i : Fin degree, |w[i]| < 9 * Field.q)
      ∧ (∃ (u : Poly) (reads : List Nat),
        Runs (backward (Vector.replicate degree (Field.q - 1)))
            (.ok (⟨u, 1, reads⟩ : State) : Outcome Empty State)
          ∧ ∀ i : Fin degree, |u[i]| ≤ 4222976)
      ∧ Returns
        (do
          let u ←
            PolyVec.inverseTransform
              (Vector.replicate ParameterSet.mldsa65.rows
                (Vector.replicate degree (Field.q - 1)))
          u.add
            (Vector.replicate ParameterSet.mldsa65.rows
              (Vector.replicate degree (-4)))
          : Outcome Empty (PolyVec ParameterSet.mldsa65.rows))
        fun t => t.liftNegative.Canonical := by
  have hLargest :
      Within (Field.q - 1)
        (Vector.replicate degree (Field.q - 1)) := by
    intro i
    simp [Word.Within, Field.q]
  rcases transforms_in_range (ε := Empty) hLargest with
    ⟨⟨w, reads, hRuns, _, hWords⟩,
      ⟨u, reads', hRuns', _, hWords', _⟩, hVectors⟩
  refine
    ⟨⟨w, reads, hRuns, hWords⟩, ⟨u, reads', hRuns', hWords'⟩,
      hVectors .mldsa65 _ _ ?_ ?_⟩
  · intro i
    simpa using hLargest
  · intro i k
    have hFour : Word.Within ParameterSet.mldsa65.eta (-4) := by
      decide
    simpa using hFour

end Network

end LatticeSignature
