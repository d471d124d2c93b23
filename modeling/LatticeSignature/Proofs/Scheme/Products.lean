import LatticeSignature.Proofs.Ring.Multiplication
import LatticeSignature.Proofs.Sampling.Challenge
import LatticeSignature.Proofs.Sampling.Ranges
import LatticeSignature.Scheme.Signing

/-
  The products that the scheme computes, as products in the
  ring.  Products with a challenge are so small that they are
  the products of the integers, too.

  Main declarations:
    * `Entries.toFun_eq_of_residues`
    * `Poly.inverseTransform_exact`
    * `Scheme.maskProduct_returns`
    * `Scheme.transformedChallenge_ends`
    * `Scheme.timesChallenge_returns`
-/

------------------------------------------------------------
-- Small Representatives
------------------------------------------------------------

namespace LatticeSignature

/- Two close numbers with one residue are equal. -/
theorem Residue.eq_of_intCast_eq
    {a b : Int}
    (hSame : (a : Residue) = b)
    (hClose : Word.Within (Field.q - 1) (a - b)) :
    a = b := by
  rcases Residue.exists_eq_add_of_intCast_eq hSame with ⟨k, hk⟩
  unfold Word.Within Field.q at *
  omega

namespace Entries

/- Small words with the residues of small numbers are these. -/
theorem toFun_eq_of_residues
    {bound bound' : Int}
    {r : Poly}
    {a : Negacyclic.Element Int}
    (hr : Within bound r)
    (ha : ∀ i, |a i| ≤ bound')
    (hBound : bound + bound' ≤ Field.q - 1)
    (hSame : r.element = Negacyclic.castElement a) :
    toFun r = a := by
  funext i
  apply Residue.eq_of_intCast_eq (congrFun hSame i)
  have hri := hr i
  have hai := abs_le.1 (ha i)
  change Word.Within _ (r[i] - a i)
  unfold Word.Within at *
  omega

end Entries

namespace Poly

open Outcome Negacyclic

variable {ε : Type}

/-
  A product whose coefficients are small over the integers is
  transformed back to these integers.
-/
theorem inverseTransform_exact
    {bound : Int}
    {w : Poly}
    {a : Element Int}
    (hw : IsProduct (Field.q - 1) w (castElement a))
    (ha : ∀ k, Word.Within bound (a k))
    (hBound : bound + 4211198 ≤ Field.q - 1) :
    Returns (w.inverseTransform : Outcome ε Poly) fun r =>
      Entries.toFun r = a ∧ Entries.Within bound r := by
  refine (inverseTransform_of_isProduct hw).mono ?_
  rintro r ⟨hRange, hElement⟩
  have hExact : Entries.toFun r = a :=
    Entries.toFun_eq_of_residues hRange
      (fun k => abs_le.2 (ha k)) (by omega) hElement
  rw [← hExact] at ha
  exact ⟨hExact, ha⟩

end Poly

namespace Scheme

open Outcome Negacyclic

variable {rows columns n : Nat}

------------------------------------------------------------
-- Products of the Scheme
------------------------------------------------------------

/- The bound of responses is one that norms can exceed. -/
theorem responseBound_le
    (p : ParameterSet) :
    responseBound p ≤ (Field.q - 1) / 8 := by
  have hGamma := p.gamma1_le
  unfold responseBound Field.q
  omega

/- Masks and responses are far below the modulus. -/
theorem within_response
    {p : ParameterSet}
    {z : PolyVec p.columns}
    (h :
      ∀ i : Fin p.columns,
        Encoding.HalfOpen (-p.gamma1) p.gamma1 z[i]) :
    z.Within (Field.q - 1) := by
  have hGamma := p.gamma1_le
  intro i k
  have hk := h i k
  unfold Word.Within Field.q
  omega

/- The product of a matrix and a mask, by representatives. -/
theorem maskProduct_returns
    {matrix : Matrix rows columns}
    {mask : PolyVec columns}
    (hMatrix : matrix.Canonical)
    (hMask : mask.Within (Field.q - 1))
    (hSize : columns ≤ 8) :
    Returns (maskProduct matrix mask) fun w =>
      w.Canonical
        ∧ w.elements =
          Negacyclic.apply matrix.elements mask.elements := by
  rw [maskProduct, Matrix.multiply_bind]
  refine (Matrix.multiply_elements hMatrix hMask hSize).bind ?_
  rintro w ⟨hRange, hElements⟩
  refine returns_ok ⟨?_, ?_⟩
  · exact PolyVec.canonical_liftNegative (hRange.mono (by decide))
  · rw [PolyVec.elements_liftNegative, hElements]

/- A commitment of any bytes has a challenge seed. -/
theorem challengeSeed_eq_ok
    (p : ParameterSet)
    (digest : Bytes)
    (high : PolyVec p.rows) :
    challengeSeed p digest high =
      .ok
        (Keccak.shake256
          (digest ++ Encoding.encodeCommitment p high)
          p.challengeBytes) := by
  rw [challengeSeed, Encoding.commitmentBytes_eq_ok]
  rfl

/- The challenge of a seed cannot be sampled. -/
def ChallengeSpent
    (p : ParameterSet)
    (seed : Bytes)
    (stop : Stop SchemeError) : Prop :=
  stop = .exhausted
    ∧ Sampling.challenge p seed =
      (.error .exhausted : Outcome SchemeError Poly)

/- The transform of the challenge of a seed. -/
theorem transformedChallenge_ends
    (p : ParameterSet)
    (seed : Bytes) :
    Ends (ChallengeSpent p seed) (transformedChallenge p seed)
      fun c =>
        ∃ challenge,
          Sampling.challenge p seed =
              (.ok challenge : Outcome SchemeError Poly)
            ∧ Sampling.IsChallenge p.tau challenge
            ∧ Poly.IsTransform c challenge.element := by
  have hSampled :
      Ends (ChallengeSpent p seed) (Sampling.challenge p seed)
        fun challenge =>
          Sampling.challenge p seed =
              (.ok challenge : Outcome SchemeError Poly)
            ∧ Sampling.IsChallenge p.tau challenge := by
    refine (Sampling.challenge_yields p
      seed).with_eq.with_stop.weaken ?_
    rintro stop ⟨hStop, rfl⟩
    exact ⟨rfl, hStop⟩
  refine hSampled.bind ?_
  rintro challenge ⟨hOk, hChallenge⟩
  have hRange : Entries.Within (Field.q - 1) challenge :=
    hChallenge.within.mono (by decide)
  rcases Poly.transform_returns (ε := SchemeError) hRange with
    ⟨c, hTransform, hc⟩
  exact Or.inl ⟨c, hTransform, challenge, hOk, hChallenge, hc⟩

/- A challenge enlarges a small polynomial by its weight. -/
theorem product_within
    {weight bound : Int}
    {c s : Poly}
    (hc : Sampling.IsChallenge weight c)
    (hs : Entries.Within bound s)
    (k : Fin degree) :
    Word.Within (weight * bound)
      (product (Entries.toFun c) (Entries.toFun s) k) :=
  abs_le.1
    (product_bounds hc.total (fun j => abs_le.2 (hs j)) k)

/-
  The products of small vectors and a challenge, as products
  of integers.
-/
theorem timesChallenge_returns
    {weight bound : Int}
    {v s : PolyVec n}
    {c challenge : Poly}
    (hv : v.IsTransform s.elements)
    (hc : Poly.IsTransform c challenge.element)
    (hs : s.Within bound)
    (hChallenge : Sampling.IsChallenge weight challenge)
    (hBound : weight * bound + 4211198 ≤ Field.q - 1) :
    Returns (timesChallenge v c) fun r =>
      r.integers =
          (fun i =>
            product (Entries.toFun challenge) (s.integers i))
        ∧ r.Within (weight * bound) := by
  refine (PolyVec.scale_returns hv hc).bind ?_
  intro scaled hScaled
  have hEntry :
      ∀ i : Fin n,
        Returns
          (scaled[i].inverseTransform : Outcome SchemeError Poly)
          fun r =>
            Entries.toFun r =
                product (Entries.toFun challenge) (s.integers i)
              ∧ Entries.Within (weight * bound) r := by
    intro i
    have hProduct :
        Poly.IsProduct (Field.q - 1) scaled[i]
          (castElement
            (product (Entries.toFun challenge)
              (s.integers i))) := by
      rw [castElement_product]
      exact hScaled i
    exact Poly.inverseTransform_exact hProduct
      (product_within hChallenge (hs i)) hBound
  refine (returns_mapEntries hEntry).mono ?_
  intro r hr
  exact ⟨funext fun i => (hr i).1, fun i => (hr i).2⟩

end Scheme

end LatticeSignature
