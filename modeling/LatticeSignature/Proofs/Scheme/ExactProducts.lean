import LatticeSignature.Proofs.Scheme.Signing

/-
  Products with challenges are products of integers: the
  transforms return the small representatives, not others of
  the same residues.  So an attempt to sign computes with
  integers, and none of its reductions changes a coefficient.

  Main declarations:
    * `Poly.multiply_exact`
    * `Poly.product_leadingOnes_constant`
    * `PolyVec.ofIntegers`
    * `Scheme.ExactSteps`, `Scheme.AttemptExact`
    * `Scheme.exactAttempt`, `Scheme.attempt_eq_exactAttempt`
    * `Scheme.challenge_products_exact`
-/

------------------------------------------------------------
-- Products of Polynomials
------------------------------------------------------------

namespace LatticeSignature

open Outcome Negacyclic

namespace Poly

variable {ε : Type}

/-
  A challenge and a small polynomial are multiplied as
  integers.
-/
theorem multiply_exact
    {weight bound : Int}
    {c s : Poly}
    (hc : Sampling.IsChallenge weight c)
    (hs : Entries.Within bound s)
    (hSmall : bound ≤ Field.q - 1)
    (hBound : weight * bound + 4211198 ≤ Field.q - 1) :
    Returns (c.multiply s : Outcome ε Poly) fun r =>
      Entries.toFun r =
          product (Entries.toFun c) (Entries.toFun s)
        ∧ Entries.Within (weight * bound) r := by
  have hUnit : Entries.Within (Field.q - 1) c :=
    hc.within.mono (by decide)
  refine (transform_returns hUnit).bind ?_
  intro x hx
  refine (transform_returns (hs.mono hSmall)).bind ?_
  intro y hy
  refine (pointwise_returns hx hy).bind ?_
  intro w hw
  have hProduct :
      IsProduct (Field.q - 1) w
        (castElement
          (product (Entries.toFun c) (Entries.toFun s))) := by
    rw [castElement_product]
    exact hw
  exact inverseTransform_exact hProduct
    (Scheme.product_within hc hs) hBound

/- The polynomial whose leading coefficients are one. -/
def leadingOnes
    (count : Nat) : Poly :=
  Vector.ofFn fun k => if k.val < count then 1 else 0

/- The polynomial whose coefficients are all the same. -/
def constant
    (a : Int) : Poly :=
  Vector.ofFn fun _ => a

theorem toFun_leadingOnes
    (count : Nat) :
    Entries.toFun (leadingOnes count) = fun k =>
      if k.val < count then 1 else 0 := by
  funext k
  simp [Entries.toFun, leadingOnes]

theorem getElem_constant
    (a : Int)
    (k : Fin degree) :
    (constant a)[k] = a := by
  simp [constant]

theorem isSigned_leadingOnes
    {count : Nat}
    (h : count ≤ degree) :
    Sampling.IsSigned count
      (Entries.toFun (leadingOnes count)) := by
  rw [toFun_leadingOnes]
  constructor
  · intro i
    split
    · exact Or.inr (Or.inl rfl)
    · exact Or.inl rfl
  · simp [Sampling.support, Fin.card_filter_val_lt, h]

/-
  The bound of products is the best one: the last coefficient
  of the product of leading ones and a constant reaches it.
-/
theorem product_leadingOnes_constant
    {count : Nat}
    (h : count ≤ degree)
    (a : Int) :
    product (Entries.toFun (leadingOnes count))
        (Entries.toFun (constant a)) 255 =
      count * a := by
  have hTerm :
      ∀ i : Fin degree,
        (if i.val ≤ (255 : Fin degree).val then 1 else -1)
            * (Entries.toFun (leadingOnes count) i
              * Entries.toFun (constant a) (255 - i)) =
          (if i.val < count then 1 else 0) * a := by
    intro i
    have hLast : i.val ≤ (255 : Fin degree).val :=
      Nat.le_of_lt_succ i.isLt
    rw [if_pos hLast, one_mul, toFun_leadingOnes]
    exact congrArg _ (getElem_constant a (255 - i))
  rw [product_eq_sum, Finset.sum_congr rfl fun i _ => hTerm i,
    ← Finset.sum_mul, Finset.sum_boole, Fin.card_filter_val_lt,
    min_eq_right h]

end Poly

------------------------------------------------------------
-- Vectors of Integers
------------------------------------------------------------

namespace PolyVec

variable {n : Nat}

/- The vector whose coefficients are given integers. -/
def ofIntegers
    (a : Fin n → Element Int) : PolyVec n :=
  Vector.ofFn fun i => Vector.ofFn (a i)

theorem integers_ofIntegers
    (a : Fin n → Element Int) :
    (ofIntegers a).integers = a := by
  funext i k
  simp [integers, ofIntegers, Entries.toFun]

theorem ofIntegers_integers
    (v : PolyVec n) :
    ofIntegers v.integers = v := by
  apply Entries.ext_rows
  intro i k
  simp [integers, ofIntegers, Entries.toFun]

end PolyVec

namespace Scheme

variable {p : ParameterSet}
variable {n : Nat}

/- What follows an exact step and its reduction. -/
theorem IsExact.bind_reduce
    {β : Type}
    {bound : Int}
    {a : Fin n → Element Int}
    {step : Outcome SchemeError (PolyVec n)}
    (h : IsExact bound a step)
    (next : PolyVec n → Outcome SchemeError β) :
    (step >>= fun v => v.reduce >>= next) =
      next (PolyVec.ofIntegers a) := by
  rcases h with ⟨v, hStep, rfl, _, hReduce⟩
  rw [hStep, ok_bind, hReduce, ok_bind,
    PolyVec.ofIntegers_integers]

theorem IsExact.within
    {bound : Int}
    {a : Fin n → Element Int}
    {step : Outcome SchemeError (PolyVec n)}
    (h : IsExact bound a step) :
    (PolyVec.ofIntegers a).Within bound := by
  rcases h with ⟨v, _, rfl, hRange, _⟩
  rw [PolyVec.ofIntegers_integers]
  exact hRange

------------------------------------------------------------
-- Steps of an Attempt
------------------------------------------------------------

/-
  The response `y + c * s1`, the remainder `w0 - c * s2` and
  the correction `c * t0` of an attempt are exact before they
  are reduced, and they keep their magnitudes.
-/
structure ExactSteps
    (x : Candidate p)
    (k : Preparation p)
    (low : PolyVec p.rows)
    (c : Poly) : Prop where
  response :
    IsExact (p.gamma1 + p.beta)
      (x.mask.integers + x.scaledIntegers x.key.s1)
      (response k c x.mask)
  remainder :
    IsExact (p.gamma2 + p.beta)
      (low.integers - x.scaledIntegers x.key.s2)
      (remainder k c low)
  correction :
    IsExact (p.tau * 4096)
      (x.scaledIntegers x.key.t0)
      (correction k c)

/-
  The challenge of an attempt has the weight of its parameter
  set, and the steps with its transform are exact.
-/
def AttemptExact
    (b : Backend)
    (key : SecretParts p)
    (k : Preparation p)
    (n : Nat) : Prop :=
  Returns (commit b k (UInt16.ofNat n)) fun commitment =>
    Returns (challengeSeed p k.digest commitment.parts.high)
      fun seed =>
        Ends (ChallengeSpent p seed)
          (transformedChallenge p seed)
          fun c =>
            ∃ challenge,
              Sampling.challenge p seed =
                  (.ok challenge : Outcome SchemeError Poly)
                ∧ Sampling.IsSigned p.tau
                  (Entries.toFun challenge)
                ∧ ExactSteps
                  ⟨key, k.matrix, commitment.mask, seed,
                    challenge⟩
                  k commitment.parts.low c

theorem attempt_exact
    {key : SecretParts p}
    {k : Preparation p}
    (b : Backend)
    (hk : Prepared key k)
    (n : Nat) :
    AttemptExact b key k n := by
  refine (commit_returns b hk n).mono ?_
  rintro ⟨mask, parts⟩ ⟨hMask, hParts⟩
  refine ⟨_, challengeSeed_eq_ok p k.digest parts.high, ?_⟩
  generalize
    Keccak.shake256
      (k.digest ++ Encoding.encodeCommitment p parts.high)
      p.challengeBytes = seed
  refine (transformedChallenge_ends p seed).mono ?_
  rintro c ⟨challenge, hOk, hIsChallenge, hc⟩
  let x : Candidate p := ⟨key, k.matrix, mask, seed, challenge⟩
  have hx : x.InRange :=
    ⟨hk.inRange, hk.matrix, fun i => (hMask i).2, hIsChallenge⟩
  have hLow : parts.low.Within p.gamma2 :=
    low_within fun i j => (hParts i j).2
  have hSampled := (Sampling.challenge_shuffles p seed).of_eq_ok hOk
  refine ⟨challenge, hOk, hSampled.isSigned, ?_⟩
  exact
    { response := response_exact (x := x) hx hk hc
      remainder := remainder_exact (x := x) hx hk hc hLow
      correction := correction_exact (x := x) hx hk hc }

------------------------------------------------------------
-- Attempts over the Integers
------------------------------------------------------------

/- An attempt that computes with integers after its challenge. -/
def exactAttempt
    (b : Backend)
    (key : SecretParts p)
    (k : Preparation p)
    (kappa : UInt16) :
    Outcome SchemeError (Option (SignatureParts p)) := do
  let commitment ← commit b k kappa
  let high := commitment.parts.high
  let seed ← challengeSeed p k.digest high
  let challenge ← Sampling.challenge p seed
  let x : Candidate p :=
    ⟨key, k.matrix, commitment.mask, seed, challenge⟩
  let z :=
    PolyVec.ofIntegers
      (x.mask.integers + x.scaledIntegers x.key.s1)
  if z.exceedsNorm (responseBound p) then
    return none
  else
    let remainder :=
      commitment.parts.low.integers
        - x.scaledIntegers x.key.s2
    let low := PolyVec.ofIntegers remainder
    if low.exceedsNorm (lowPartBound p) then
      return none
    else
      let correction := x.scaledIntegers x.key.t0
      let ct0 := PolyVec.ofIntegers correction
      if ct0.exceedsNorm p.gamma2 then
        return none
      else
        let corrected :=
          PolyVec.ofIntegers (remainder + correction)
        let hints := Hints.make p.buckets corrected high
        if hints.weight > p.omega then
          return none
        else
          return some ⟨seed, z, hints⟩

/-
  An attempt is one over the integers: neither the transforms
  nor the reductions show in its outcome.
-/
theorem attempt_eq_exactAttempt
    {key : SecretParts p}
    {k : Preparation p}
    (b : Backend)
    (hk : Prepared key k)
    (n : Nat) :
    attempt b k (UInt16.ofNat n) =
      exactAttempt b key k (UInt16.ofNat n) := by
  rcases attempt_exact b hk n with
    ⟨commitment, hCommit, seed, hSeed, hChallenge⟩
  rw [attempt, exactAttempt, hCommit, ok_bind, ok_bind]
  dsimp only
  rw [hSeed, ok_bind, ok_bind]
  rcases hChallenge with
    ⟨c, hc, challenge, hOk, _, hSteps⟩
      | ⟨stop, hStop, rfl, hSpent⟩
  swap
  · rw [hStop, hSpent]
    rfl
  have hGamma := p.gamma2_le
  have hBeta := p.beta_le
  have hTau := p.tau_le
  rcases PolyVec.add_returns (ε := SchemeError)
      hSteps.remainder.within hSteps.correction.within
      (by omega) with
    ⟨corrected, hAdd, hSum, _⟩
  rw [PolyVec.integers_ofIntegers,
    PolyVec.integers_ofIntegers] at hSum
  rw [hc, hOk, ok_bind, ok_bind, hSteps.response.bind_reduce,
    hSteps.remainder.bind_reduce,
    hSteps.correction.bind_reduce, hAdd, ok_bind, ← hSum,
    PolyVec.ofIntegers_integers]

------------------------------------------------------------
-- Exact Products
------------------------------------------------------------

variable {ε : Type}

/-
  Challenges are multiplied with secret polynomials, and with
  low parts of keys, as integers.  In every attempt with a key
  that can be decoded, the response, the remainder and the
  correction are the integers that they stand for, to reduce
  them changes nothing, and the attempt is one over the
  integers.
-/
theorem challenge_products_exact
    (p : ParameterSet) :
    (∀ c s : Poly,
      Sampling.IsSigned p.tau (Entries.toFun c) →
        (Entries.Within p.eta s →
          Returns (c.multiply s : Outcome ε Poly) fun r =>
            Entries.toFun r =
                product (Entries.toFun c) (Entries.toFun s)
              ∧ Entries.Within p.beta r)
          ∧ (Encoding.HalfOpen (-4096) 4096 s →
            Returns (c.multiply s : Outcome ε Poly) fun r =>
              Entries.toFun r =
                  product (Entries.toFun c) (Entries.toFun s)
                ∧ Entries.Within (p.tau * 4096) r))
      ∧ ∀ (b : Backend)
          (secretKey message context : Bytes)
          (randomizer : Seed),
        Ends (PrepareStops p b secretKey context)
          (prepare p b secretKey message context randomizer)
          fun k =>
            ∃ key,
              Encoding.unpackSecretKey p secretKey = .ok key
                ∧ ∀ n : Nat,
                  AttemptExact b key k n
                    ∧ attempt b k (UInt16.ofNat n) =
                      exactAttempt b key k (UInt16.ofNat n) := by
  constructor
  · intro c s hc
    constructor
    · intro hs
      have hProduct :=
        Poly.multiply_exact (ε := ε) hc.isChallenge hs
          (p.eta_le.trans (by decide)) (secret_room p)
      rw [p.tau_mul_eta] at hProduct
      exact hProduct
    · intro hs
      have hRange : Entries.Within 4096 s := by
        intro i
        have hi := hs i
        unfold Word.Within
        omega
      exact
        Poly.multiply_exact hc.isChallenge hRange (by decide)
          (low_room p)
  · intro b secretKey message context randomizer
    refine (prepare_ends p b secretKey message context
      randomizer).mono ?_
    rintro k ⟨key, hKey, _, _, _, _, hk⟩
    exact ⟨key, hKey, fun n =>
      ⟨attempt_exact b hk n, attempt_eq_exactAttempt b hk n⟩⟩

/-
  A challenge of leading ones and a constant have the largest
  coefficients that products can have, and the transforms
  return these as they are.
-/
theorem challenge_products_reach_bound :
    Sampling.IsSigned ParameterSet.mldsa87.tau
        (Entries.toFun (Poly.leadingOnes 60))
      ∧ Returns
        ((Poly.leadingOnes 60).multiply (Poly.constant 2)
          : Outcome Empty Poly)
        (fun r =>
          r[(255 : Fin degree)] = ParameterSet.mldsa87.beta)
      ∧ Returns
        ((Poly.leadingOnes 60).multiply (Poly.constant 4096)
          : Outcome Empty Poly)
        fun r => r[(255 : Fin degree)] = 60 * 4096 := by
  have hSigned :=
    Poly.isSigned_leadingOnes (show 60 ≤ degree by decide)
  have hLast :
      ∀ {a : Int} {r : Poly},
        Entries.toFun r =
            product (Entries.toFun (Poly.leadingOnes 60))
              (Entries.toFun (Poly.constant a)) →
          r[(255 : Fin degree)] = 60 * a := by
    intro a r hr
    exact
      (congrFun hr 255).trans
        (Poly.product_leadingOnes_constant (by decide) a)
  have hExact :=
    (challenge_products_exact (ε := Empty) .mldsa87).1
      (Poly.leadingOnes 60)
  refine ⟨hSigned, ?_, ?_⟩
  · refine ((hExact (Poly.constant 2) hSigned).1 ?_).mono
      fun r hr => hLast hr.1
    intro i
    rw [Poly.getElem_constant]
    decide
  · refine ((hExact (Poly.constant 4096) hSigned).2 ?_).mono
      fun r hr => hLast hr.1
    intro i
    rw [Poly.getElem_constant]
    decide

end Scheme

end LatticeSignature
