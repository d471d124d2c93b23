import LatticeSignature.Proofs.Scheme.Candidate
import LatticeSignature.Proofs.Scheme.Message

/-
  Signing returns the candidate of the first attempt that
  passes the checks of the scheme.

  Main declarations:
    * `Scheme.Prepared`
    * `Scheme.prepare_ends`
    * `Scheme.commit_returns`
    * `Scheme.IsExact`
    * `Scheme.response_exact`, `Scheme.remainder_exact`
    * `Scheme.correction_exact`
    * `Scheme.attempt_ends`
    * `Scheme.search_ends`
    * `Scheme.Signed`, `Scheme.Signed.unique`
    * `Scheme.accept_ends`
    * `Scheme.sign_ends`
    * `Scheme.sign_refines`
-/

------------------------------------------------------------
-- Preparation
------------------------------------------------------------

namespace LatticeSignature

namespace Scheme

open Outcome Negacyclic

/- The digest of a message in a context, under a secret key. -/
def signedDigest
    {p : ParameterSet}
    (key : SecretParts p)
    (context message : Bytes) : Bytes :=
  Keccak.shake256 (frame key.tr.toList context message) digestBytes

/- The seed of the masks for a digest. -/
def maskSeed
    {p : ParameterSet}
    (key : SecretParts p)
    (randomizer : Seed)
    (digest : Bytes) : Bytes :=
  Keccak.shake256
    (key.key.toList ++ randomizer.toList ++ digest) digestBytes

/- A preparation holds the matrix and the transforms of a key. -/
structure Prepared
    {p : ParameterSet}
    (key : SecretParts p)
    (k : Preparation p) : Prop where
  inRange : key.InRange
  matrix : k.matrix.Canonical
  maskSeed : 32 ≤ k.maskSeed.length
  s1 : k.s1.IsTransform key.s1.elements
  s2 : k.s2.IsTransform key.s2.elements
  t0 : k.t0.IsTransform key.t0.elements

/- The ways in which signing cannot begin. -/
def PrepareStops
    (p : ParameterSet)
    (b : Backend)
    (secretKey context : Bytes)
    (stop : Stop SchemeError) : Prop :=
  Encoding.unpackSecretKey p secretKey = .error stop
    ∨ stop = .error (.contextTooLong context.length)
      ∧ 255 < context.length
    ∨ stop = .exhausted
      ∧ ∃ key : SecretParts p,
        Encoding.unpackSecretKey p secretKey = .ok key
          ∧ Sampling.matrix p b key.rho = .error .exhausted

theorem prepare_ends
    (p : ParameterSet)
    (b : Backend)
    (secretKey message context : Bytes)
    (randomizer : Seed) :
    Ends (PrepareStops p b secretKey context)
      (prepare p b secretKey message context randomizer)
      fun k =>
        ∃ key,
          Encoding.unpackSecretKey p secretKey = .ok key
            ∧ context.length ≤ 255
            ∧ Sampling.matrix p b key.rho = .ok k.matrix
            ∧ k.digest = signedDigest key context message
            ∧ k.maskSeed = maskSeed key randomizer k.digest
            ∧ Prepared key k := by
  rcases Encoding.unpackSecretKey_decides p secretKey with
    ⟨key, hKey, hRange, _⟩ | ⟨stop, hStop, _⟩
  swap
  · exact Ends.bind_of_error hStop (Or.inl hStop)
  rw [prepare, hKey, ok_bind]
  by_cases hContext : context.length ≤ 255
  swap
  · exact Ends.bind_of_error
      (messageDigest_eq_fail _ message hContext)
      (Or.inr (Or.inl ⟨rfl, not_le.1 hContext⟩))
  rw [messageDigest_eq_ok _ message hContext, ok_bind]
  rcases Sampling.matrix_yields p b key.rho with
    ⟨matrix, hMatrix, hCanonical⟩ | ⟨_, hStop, rfl⟩
  swap
  · exact Ends.bind_of_error hStop
      (Or.inr (Or.inr ⟨rfl, key, hKey, hStop⟩))
  have hEta : (p.eta : Int) ≤ Field.q - 1 :=
    p.eta_le.trans (by decide)
  dsimp only
  rw [hMatrix, ok_bind]
  apply Returns.ends
  refine (PolyVec.transform_returns
    (PolyVec.Within.mono hRange.s1 hEta)).bind ?_
  intro s1 h1
  refine (PolyVec.transform_returns
    (PolyVec.Within.mono hRange.s2 hEta)).bind ?_
  intro s2 h2
  refine (PolyVec.transform_returns
    ((Candidate.within_t0 hRange).mono (by decide))).bind ?_
  intro t0 h0
  refine returns_ok
    ⟨key, rfl, hContext, hMatrix, rfl, ?_, ?_⟩
  · dsimp only [maskSeed]
  · exact
      { inRange := hRange
        matrix := hCanonical
        maskSeed := by simp [digestBytes]
        s1 := h1
        s2 := h2
        t0 := h0 }

------------------------------------------------------------
-- Commitments
------------------------------------------------------------

/- A commitment of a mask is split by buckets. -/
theorem commit_returns
    {p : ParameterSet}
    {key : SecretParts p}
    {k : Preparation p}
    (b : Backend)
    (hk : Prepared key k)
    (n : Nat) :
    Returns (commit b k (UInt16.ofNat n)) fun c =>
      (∀ i : Fin p.columns,
        Sampling.seededMask p b.secretStream k.maskSeed
              (UInt16.ofNat (p.columns * n + i.val)) =
            .ok c.mask[i]
          ∧ Encoding.HalfOpen (-p.gamma1) p.gamma1 c.mask[i])
        ∧ ∀ (i : Fin p.rows) (j : Fin degree),
          c.parts.high[i][j] =
              p.buckets.highBits
                (Negacyclic.apply k.matrix.elements
                  c.mask.elements i j)
            ∧ c.parts.low[i][j] =
              p.buckets.lowBits
                (Negacyclic.apply k.matrix.elements
                  c.mask.elements i j) := by
  refine (Sampling.masks_returns p b.secretStream
    (UInt16.ofNat n) hk.maskSeed).bind ?_
  intro mask hMask
  simp only [Sampling.maskNonce_ofNat] at hMask
  have hWithin : mask.Within (Field.q - 1) :=
    within_response fun i => (hMask i).2
  refine (maskProduct_returns hk.matrix hWithin
    p.columns_le).bind ?_
  rintro w ⟨hCanonical, hElements⟩
  refine (PolyVec.splitBuckets_returns p.buckets
    hCanonical).bind ?_
  intro parts hParts
  rw [hElements] at hParts
  exact returns_ok ⟨hMask, hParts⟩

------------------------------------------------------------
-- Parts of an Attempt
------------------------------------------------------------

variable {p : ParameterSet}
variable {x : Candidate p}
variable {k : Preparation p}
variable {c : Poly}

/- Products with secrets are less than half of the modulus. -/
theorem secret_room
    (p : ParameterSet) :
    p.tau * (p.eta : Int) + 4211198 ≤ Field.q - 1 := by
  have hBeta := p.beta_le
  rw [p.tau_mul_eta]
  unfold Field.q
  omega

/- So are products with the low parts of keys. -/
theorem low_room
    (p : ParameterSet) :
    p.tau * (4096 : Int) + 4211198 ≤ Field.q - 1 := by
  have hTau := p.tau_le
  unfold Field.q
  omega

/-
  A step returns given integers, in words of a bounded
  magnitude, and to reduce these changes none of them.
-/
def IsExact
    {n : Nat}
    (bound : Int)
    (a : Fin n → Element Int)
    (step : Outcome SchemeError (PolyVec n)) : Prop :=
  Returns step fun v =>
    v.integers = a
      ∧ v.Within bound
      ∧ v.reduce = (.ok v : Outcome SchemeError (PolyVec n))

/- Words of less than half of the modulus are not changed. -/
theorem isExact_of_within
    {n : Nat}
    {bound : Int}
    {a : Fin n → Element Int}
    {step : Outcome SchemeError (PolyVec n)}
    (h : Returns step fun v => v.integers = a ∧ v.Within bound)
    (hBound : bound ≤ 4194303) :
    IsExact bound a step := by
  refine h.mono ?_
  rintro v ⟨hIntegers, hRange⟩
  exact ⟨hIntegers, hRange,
    PolyVec.reduce_eq_self (hRange.mono hBound)⟩

/- A mask is in the range of its words. -/
theorem mask_within
    (hx : x.InRange) :
    x.mask.Within p.gamma1 := by
  intro i j
  have hij := hx.mask i j
  unfold Word.Within
  omega

/- The response is the sum of the mask and a product. -/
theorem response_exact
    (hx : x.InRange)
    (hk : Prepared x.key k)
    (hc : Poly.IsTransform c x.challenge.element) :
    IsExact (p.gamma1 + p.beta)
      (x.mask.integers + x.scaledIntegers x.key.s1)
      (response k c x.mask) := by
  have hBeta := p.beta_le
  have hGamma := p.gamma1_le
  have hTau := p.tau_mul_eta
  refine isExact_of_within ?_ (by omega)
  refine (timesChallenge_returns hk.s1 hc hx.key.s1
    hx.challenge (secret_room p)).bind ?_
  rintro cs1 ⟨hScaled, hRange⟩
  refine (PolyVec.add_returns hRange (mask_within hx)
    (by omega)).mono ?_
  rintro z ⟨hSum, hz, _⟩
  refine ⟨?_, hz.mono (by omega)⟩
  rw [hSum, hScaled, add_comm]
  rfl

/- The remainder is the low part less a product. -/
theorem remainder_exact
    {low : PolyVec p.rows}
    (hx : x.InRange)
    (hk : Prepared x.key k)
    (hc : Poly.IsTransform c x.challenge.element)
    (hLow : low.Within p.gamma2) :
    IsExact (p.gamma2 + p.beta)
      (low.integers - x.scaledIntegers x.key.s2)
      (remainder k c low) := by
  have hBeta := p.beta_le
  have hGamma := p.gamma2_le
  have hTau := p.tau_mul_eta
  refine isExact_of_within ?_ (by omega)
  refine (timesChallenge_returns hk.s2 hc hx.key.s2
    hx.challenge (secret_room p)).bind ?_
  rintro cs2 ⟨hScaled, hRange⟩
  refine (PolyVec.sub_returns hLow hRange (by omega)).mono ?_
  rintro r ⟨hDifference, hr, _⟩
  refine ⟨?_, hr.mono (by omega)⟩
  rw [hDifference, hScaled]
  rfl

/- The correction is a product. -/
theorem correction_exact
    (hx : x.InRange)
    (hk : Prepared x.key k)
    (hc : Poly.IsTransform c x.challenge.element) :
    IsExact (p.tau * 4096) (x.scaledIntegers x.key.t0)
      (correction k c) := by
  have hTau := p.tau_le
  exact isExact_of_within
    (timesChallenge_returns hk.t0 hc
      (Candidate.within_t0 hx.key) hx.challenge (low_room p))
    (by omega)

/- The response is that of the candidate, and it is reduced. -/
theorem response_returns
    (hx : x.InRange)
    (hk : Prepared x.key k)
    (hc : Poly.IsTransform c x.challenge.element) :
    Returns (response k c x.mask) fun z =>
      z = x.signature.z ∧ z.Within 4194303 := by
  have hBeta := p.beta_le
  have hGamma := p.gamma1_le
  refine (response_exact hx hk hc).mono ?_
  rintro z ⟨hSum, hz, _⟩
  refine ⟨Entries.ext_rows fun i j => ?_, hz.mono (by omega)⟩
  rw [Candidate.getElem_signature_z,
    Candidate.valMinAbs_response hx]
  exact congrFun (congrFun hSum i) j

/- Low parts are in their buckets. -/
theorem low_within
    {low : PolyVec p.rows}
    {w : Fin p.rows → Element Residue}
    (hLow :
      ∀ (i : Fin p.rows) (j : Fin degree),
        low[i][j] = p.buckets.lowBits (w i j)) :
    low.Within p.gamma2 := by
  intro i j
  rw [hLow i j]
  exact
    (Rounding.Buckets.inBucket_bits p.buckets (w i j)).within

/- The remainder is the low part less the integer product. -/
theorem remainder_returns
    {low : PolyVec p.rows}
    (hx : x.InRange)
    (hk : Prepared x.key k)
    (hc : Poly.IsTransform c x.challenge.element)
    (hLow :
      ∀ (i : Fin p.rows) (j : Fin degree),
        low[i][j] = p.buckets.lowBits (x.commitment i j)) :
    Returns (remainder k c low) fun r =>
      r.Within 4194303
        ∧ ∀ (i : Fin p.rows) (j : Fin degree),
          r[i][j] =
            p.buckets.lowBits (x.commitment i j)
              - x.scaledIntegers x.key.s2 i j := by
  have hBeta := p.beta_le
  have hGamma := p.gamma2_le
  refine (remainder_exact hx hk hc (low_within hLow)).mono ?_
  rintro r ⟨hDifference, hr, _⟩
  refine ⟨hr.mono (by omega), fun i j => ?_⟩
  rw [← hLow i j]
  exact congrFun (congrFun hDifference i) j

/- The correction is the integer product. -/
theorem correction_returns
    (hx : x.InRange)
    (hk : Prepared x.key k)
    (hc : Poly.IsTransform c x.challenge.element) :
    Returns (correction k c) fun r =>
      r.Within 4194303
        ∧ ∀ (i : Fin p.rows) (j : Fin degree),
          r[i][j] = x.scaledIntegers x.key.t0 i j := by
  have hTau := p.tau_le
  refine (correction_exact hx hk hc).mono ?_
  rintro r ⟨hScaled, hRange, _⟩
  refine ⟨hRange.mono (by omega), fun i j => ?_⟩
  exact congrFun (congrFun hScaled i) j

------------------------------------------------------------
-- Attempts
------------------------------------------------------------

/- What an attempt leads to: its candidate, if it passes. -/
def Decided
    (x : Candidate p)
    (r : Option (SignatureParts p)) : Prop :=
  x.Passes ∧ r = some x.signature ∨ ¬ x.Passes ∧ r = none

/- A check that the candidate does not pass ends its attempt. -/
theorem decided_of_check
    {Fails Good : Prop}
    [Decidable Fails]
    {rest : Outcome SchemeError (Option (SignatureParts p))}
    (hCheck : ¬ Fails ↔ Good)
    (hNeeded : x.Passes → Good)
    (hRest : Good → Returns rest (Decided x)) :
    Returns (if Fails then return none else rest)
      (Decided x) := by
  by_cases hFails : Fails
  · rw [if_pos hFails]
    refine returns_ok (Or.inr ⟨fun hPasses => ?_, rfl⟩)
    exact hCheck.2 (hNeeded hPasses) hFails
  · rw [if_neg hFails]
    exact hRest (hCheck.1 hFails)

/- The norms of words are those of the candidate. -/
theorem exceedsNorm_iff_response
    (hz : x.signature.z.Within 4194303) :
    ¬ x.signature.z.exceedsNorm (responseBound p)
      ↔ ∀ (i : Fin p.columns) (j : Fin degree),
        |(x.response i j).valMinAbs| < p.gamma1 - p.beta := by
  rw [Bool.not_eq_true, PolyVec.exceedsNorm_eq_false_iff
    (hz.mono (by decide)) (responseBound_le p)]
  simp only [Candidate.getElem_signature_z]
  rfl

theorem exceedsNorm_iff_residual
    {r : PolyVec p.rows}
    (hx : x.InRange)
    (hr : r.Within 4194303)
    (hRemainder :
      ∀ (i : Fin p.rows) (j : Fin degree),
        r[i][j] =
          p.buckets.lowBits (x.commitment i j)
            - x.scaledIntegers x.key.s2 i j) :
    ¬ r.exceedsNorm (lowPartBound p)
      ↔ ∀ (i : Fin p.rows) (j : Fin degree),
        |p.buckets.lowBits (x.residual i j)|
          < p.gamma2 - p.beta := by
  have hBound : lowPartBound p ≤ (Field.q - 1) / 8 := by
    have hGamma := p.gamma2_le
    unfold lowPartBound Field.q
    omega
  rw [Bool.not_eq_true, PolyVec.exceedsNorm_eq_false_iff
    (hr.mono (by decide)) hBound]
  simp only [hRemainder, Candidate.abs_lowBits_residual_lt_iff hx]
  rfl

theorem exceedsNorm_iff_correction
    {ct0 : PolyVec p.rows}
    (hx : x.InRange)
    (hRange : ct0.Within 4194303)
    (hct0 :
      ∀ (i : Fin p.rows) (j : Fin degree),
        ct0[i][j] = x.scaledIntegers x.key.t0 i j) :
    ¬ ct0.exceedsNorm p.gamma2
      ↔ ∀ (i : Fin p.rows) (j : Fin degree),
        |(x.correction i j).valMinAbs| < p.gamma2 := by
  have hBound : p.gamma2 ≤ (Field.q - 1) / 8 :=
    p.gamma2_le.trans (by decide)
  rw [Bool.not_eq_true, PolyVec.exceedsNorm_eq_false_iff
    (hRange.mono (by decide)) hBound]
  simp only [hct0, Candidate.valMinAbs_correction hx]

/- The hints for the corrected remainder. -/
theorem make_eq_hints
    {low ct0 corrected : PolyVec p.rows}
    (hx : x.InRange)
    (hResidual :
      ∀ (i : Fin p.rows) (j : Fin degree),
        |p.buckets.lowBits (x.residual i j)|
          < p.gamma2 - p.beta)
    (hCorrection :
      ∀ (i : Fin p.rows) (j : Fin degree),
        |(x.correction i j).valMinAbs| < p.gamma2)
    (hLow :
      ∀ (i : Fin p.rows) (j : Fin degree),
        low[i][j] =
          p.buckets.lowBits (x.commitment i j)
            - x.scaledIntegers x.key.s2 i j)
    (hct0 :
      ∀ (i : Fin p.rows) (j : Fin degree),
        ct0[i][j] = x.scaledIntegers x.key.t0 i j)
    (hSum : corrected.integers = low.integers + ct0.integers) :
    Hints.make p.buckets corrected x.high = x.hints := by
  apply Entries.ext_rows
  intro i j
  have hEntry : corrected[i][j] = low[i][j] + ct0[i][j] :=
    congrFun (congrFun hSum i) j
  rw [Hints.getElem_make, Candidate.getElem_high, hEntry,
    hLow i j, hct0 i j,
    Candidate.getElem_hints_eq_leaves hx (hResidual i j)
      (hCorrection i j)]

/- The challenge of an attempt cannot be sampled. -/
def AttemptStarves
    (b : Backend)
    (k : Preparation p)
    (n : Nat)
    (stop : Stop SchemeError) : Prop :=
  stop = .exhausted
    ∧ ∃ commitment seed,
      commit b k (UInt16.ofNat n) = .ok commitment
        ∧ challengeSeed p k.digest commitment.parts.high =
          .ok seed
        ∧ Sampling.Starves p.tau
          (Keccak.extend Keccak.rate256 seed)

/-
  The checks on integers are the checks of the candidate, and
  the hints are those of the candidate when they are needed.
-/
theorem attempt_ends
    {key : SecretParts p}
    (b : Backend)
    (hk : Prepared key k)
    (n : Nat) :
    Ends (AttemptStarves b k n)
      (attempt b k (UInt16.ofNat n))
      fun r =>
        ∃ x : Candidate p,
          x.key = key
            ∧ x.matrix = k.matrix
            ∧ x.IsAttempt b k.digest k.maskSeed n
            ∧ x.InRange
            ∧ Decided x r := by
  refine (commit_returns b hk n).with_eq.ends.bind ?_
  rintro ⟨mask, ⟨high, low⟩⟩ ⟨hCommit, hMask, hParts⟩
  dsimp only at hMask hParts ⊢
  have hSeedOk := challengeSeed_eq_ok p k.digest high
  rw [hSeedOk, ok_bind]
  obtain ⟨seed, hSeed⟩ :
      ∃ seed,
        Keccak.shake256
          (k.digest ++ Encoding.encodeCommitment p high)
          p.challengeBytes = seed :=
    ⟨_, rfl⟩
  rw [hSeed] at hSeedOk ⊢
  refine Ends.bind
    ((transformedChallenge_ends p seed).weaken
      fun _ hSpent =>
        ⟨hSpent.1, _, seed, hCommit, hSeedOk,
          Sampling.starves_of_challenge hSpent.2⟩) ?_
  rintro c ⟨challenge, hChallenge, hIsChallenge, hc⟩
  let x : Candidate p := ⟨key, k.matrix, mask, seed, challenge⟩
  have hx : x.InRange :=
    ⟨hk.inRange, hk.matrix, fun i => (hMask i).2, hIsChallenge⟩
  have hHigh : high = x.high := by
    apply Entries.ext_rows
    intro i j
    rw [Candidate.getElem_high]
    exact (hParts i j).1
  have hAttempt : x.IsAttempt b k.digest k.maskSeed n :=
    ⟨fun i => (hMask i).1, hHigh ▸ hSeed.symm, hChallenge⟩
  refine (Returns.mono ?_ fun r hr =>
    ⟨x, rfl, rfl, hAttempt, hx, hr⟩).ends
  refine (response_returns (x := x) hx hk hc).bind ?_
  rintro z ⟨rfl, hz⟩
  rw [PolyVec.reduce_eq_self hz, ok_bind]
  refine decided_of_check (exceedsNorm_iff_response hz)
    Candidate.Passes.response fun hShort => ?_
  refine (remainder_returns (x := x) hx hk hc
    fun i j => (hParts i j).2).bind ?_
  rintro r ⟨hr, hRemainder⟩
  rw [PolyVec.reduce_eq_self hr, ok_bind]
  refine decided_of_check (exceedsNorm_iff_residual hx hr hRemainder)
    Candidate.Passes.residual fun hInside => ?_
  refine (correction_returns (x := x) hx hk hc).bind ?_
  rintro ct0 ⟨hRange, hct0⟩
  rw [PolyVec.reduce_eq_self hRange, ok_bind]
  refine decided_of_check
    (exceedsNorm_iff_correction hx hRange hct0)
    Candidate.Passes.correction fun hCorrected => ?_
  refine (PolyVec.add_returns hr hRange (by decide)).bind ?_
  rintro corrected ⟨hSum, _⟩
  rw [hHigh,
    make_eq_hints hx hInside hCorrected hRemainder hct0 hSum]
  refine decided_of_check not_lt Candidate.Passes.hints
    fun hLight => ?_
  have hPasses : x.Passes :=
    ⟨hShort, hInside, hCorrected, hLight⟩
  exact returns_ok (Or.inl ⟨hPasses, rfl⟩)

theorem attempt_yields
    {key : SecretParts p}
    (b : Backend)
    (hk : Prepared key k)
    (n : Nat) :
    Yields (attempt b k (UInt16.ofNat n)) fun r =>
      ∃ x : Candidate p,
        x.key = key
          ∧ x.matrix = k.matrix
          ∧ x.IsAttempt b k.digest k.maskSeed n
          ∧ x.InRange
          ∧ Decided x r :=
  (attempt_ends b hk n).weaken fun _ hStop => hStop.1

------------------------------------------------------------
-- Search
------------------------------------------------------------

/-
  A search returns the first attempt that leads to something.
  It stops when an attempt stops after others that have led to
  nothing, or when all the attempts that it may count have.
-/
theorem search_ends
    {ε α : Type}
    {attempt : Nat → Outcome ε (Option α)}
    {allowed : Nat → Stop ε → Prop}
    {Q : Nat → Option α → Prop}
    (h : ∀ n, Ends (allowed n) (attempt n) (Q n))
    (remaining index : Nat) :
    Ends
      (fun stop =>
        (∃ n,
          allowed n stop
            ∧ ∀ m, index ≤ m → m < n → Q m none)
          ∨ stop = .overflow
            ∧ ∀ m, index ≤ m → m < index + remaining →
              Q m none)
      (search attempt remaining index)
      fun r =>
        ∃ n, r.1 = n + 1
          ∧ Q n (some r.2)
          ∧ ∀ m, index ≤ m → m < n → Q m none := by
  induction remaining generalizing index with
  | zero =>
      refine Or.inr ⟨.overflow, rfl, Or.inr ⟨rfl, ?_⟩⟩
      intro m hLower hUpper
      omega
  | succ remaining ih =>
      rcases h index with ⟨r, hOk, hQ⟩ | ⟨stop, hStop, hAllowed⟩
      swap
      · refine Ends.bind_of_error hStop
          (Or.inl ⟨index, hAllowed, ?_⟩)
        intro m hLower hUpper
        omega
      rw [search, hOk, ok_bind]
      cases r with
      | some candidate =>
          refine Or.inl
            ⟨(index + 1, candidate), rfl, index, rfl, hQ, ?_⟩
          intro m hLower hUpper
          omega
      | none =>
          -- The attempt at the index itself joins the others.
          have hJoin :
              ∀ {bound : Nat},
                (∀ m, index + 1 ≤ m → m < bound → Q m none) →
                  ∀ m, index ≤ m → m < bound → Q m none := by
            intro bound hLater m hLower hUpper
            rcases Nat.eq_or_lt_of_le hLower with rfl | hLt
            · exact hQ
            · exact hLater m hLt hUpper
          have hRest := ih (index + 1)
          refine (hRest.weaken ?_).mono ?_
          · rintro stop (⟨n, hAllowed, hLater⟩ | ⟨hFull, hLater⟩)
            · exact Or.inl ⟨n, hAllowed, hJoin hLater⟩
            · refine Or.inr ⟨hFull, hJoin ?_⟩
              intro m hLower hUpper
              exact hLater m hLower (by omega)
          · rintro r ⟨n, hCount, hFound, hLater⟩
            exact ⟨n, hCount, hFound, hJoin hLater⟩

------------------------------------------------------------
-- Accepted Candidates
------------------------------------------------------------

/- The seed of the masks for a message in a context. -/
def messageMaskSeed
    (key : SecretParts p)
    (context message : Bytes)
    (randomizer : Seed) : Bytes :=
  maskSeed key randomizer (signedDigest key context message)

/- An attempt whose candidate fails a check. -/
def Rejected
    (b : Backend)
    (key : SecretParts p)
    (matrix : Matrix p.rows p.columns)
    (context message : Bytes)
    (randomizer : Seed)
    (n : Nat) : Prop :=
  ∃ x : Candidate p,
    x.key = key
      ∧ x.matrix = matrix
      ∧ x.IsAttempt b (signedDigest key context message)
        (messageMaskSeed key context message randomizer) n
      ∧ ¬ x.Passes

/-
  The candidate is that of the first attempt, by number, that
  passes all checks.
-/
structure Signed
    (b : Backend)
    (secretKey message context : Bytes)
    (randomizer : Seed)
    (x : Candidate p)
    (n : Nat) : Prop where
  secretKey :
    Encoding.unpackSecretKey p secretKey = .ok x.key
  fits : context.length ≤ 255
  matrix : Sampling.matrix p b x.key.rho = .ok x.matrix
  attempt :
    x.IsAttempt b (signedDigest x.key context message)
      (messageMaskSeed x.key context message randomizer) n
  passes : x.Passes
  earlier :
    ∀ m < n,
      Rejected b x.key x.matrix context message randomizer m

/- Accepted candidates have the key and its matrix in common. -/
theorem Signed.same_key
    {b : Backend}
    {secretKey message context : Bytes}
    {randomizer : Seed}
    {x x' : Candidate p}
    {n n' : Nat}
    (h : Signed b secretKey message context randomizer x n)
    (h' : Signed b secretKey message context randomizer x' n') :
    x.key = x'.key ∧ x.matrix = x'.matrix := by
  have hKey := h.secretKey.symm.trans h'.secretKey
  injection hKey with hKey
  have hMatrix := h.matrix
  rw [hKey, h'.matrix] at hMatrix
  injection hMatrix with hMatrix
  exact ⟨hKey, hMatrix.symm⟩

/- The attempt that signing accepts has the least number. -/
theorem Signed.le
    {b : Backend}
    {secretKey message context : Bytes}
    {randomizer : Seed}
    {x x' : Candidate p}
    {n n' : Nat}
    (h : Signed b secretKey message context randomizer x n)
    (h' : Signed b secretKey message context randomizer x' n') :
    n ≤ n' := by
  by_contra hLess
  rcases h.same_key h' with ⟨hKey, hMatrix⟩
  rcases h.earlier n' (not_le.1 hLess) with
    ⟨y, hyKey, hyMatrix, hAttempt, hFails⟩
  rw [hKey] at hyKey hAttempt
  have hSame :=
    hAttempt.unique h'.attempt hyKey (hyMatrix.trans hMatrix)
  subst hSame
  exact hFails h'.passes

/- Signing accepts one candidate, in one attempt. -/
theorem Signed.unique
    {b : Backend}
    {secretKey message context : Bytes}
    {randomizer : Seed}
    {x x' : Candidate p}
    {n n' : Nat}
    (h : Signed b secretKey message context randomizer x n)
    (h' : Signed b secretKey message context randomizer x' n') :
    x = x' ∧ n = n' := by
  have hCount := Nat.le_antisymm (h.le h') (h'.le h)
  subst hCount
  rcases h.same_key h' with ⟨hKey, hMatrix⟩
  have hAttempt := h.attempt
  rw [hKey] at hAttempt
  exact ⟨hAttempt.unique h'.attempt hKey hMatrix, rfl⟩

/-
  The ways in which signing stops: it cannot begin, a sampler
  is exhausted, or all the attempts that can be counted are
  rejected.
-/
def SignStops
    (p : ParameterSet)
    (b : Backend)
    (secretKey message context : Bytes)
    (randomizer : Seed)
    (stop : Stop SchemeError) : Prop :=
  PrepareStops p b secretKey context stop
    ∨ stop = .exhausted
    ∨ stop = .overflow
      ∧ ∃ (key : SecretParts p) (matrix : Matrix p.rows p.columns),
        Encoding.unpackSecretKey p secretKey = .ok key
          ∧ Sampling.matrix p b key.rho = .ok matrix
          ∧ ∀ m < maxAttempts,
            Rejected b key matrix context message randomizer m

theorem accept_ends
    (p : ParameterSet)
    (b : Backend)
    (secretKey message context : Bytes)
    (randomizer : Seed) :
    Ends (SignStops p b secretKey message context randomizer)
      (accept p b secretKey message context randomizer)
      fun accepted =>
        ∃ (x : Candidate p) (n : Nat),
          Signed b secretKey message context randomizer x n
            ∧ x.InRange
            ∧ accepted.attempts = n + 1
            ∧ accepted.parts = x.signature := by
  refine Ends.bind
    ((prepare_ends p b secretKey message context
      randomizer).weaken fun _ hStop => Or.inl hStop) ?_
  rintro k
    ⟨key, hKey, hContext, hMatrix, hDigest, hSeed, hk⟩
  have hSearch :=
    search_ends (fun n => attempt_yields b hk n) maxAttempts 0
  rw [hSeed, hDigest] at hSearch
  have hRejected :
      ∀ m,
        (∃ x : Candidate p,
          x.key = key
            ∧ x.matrix = k.matrix
            ∧ x.IsAttempt b (signedDigest key context message)
              (messageMaskSeed key context message randomizer) m
            ∧ x.InRange
            ∧ Decided x none) →
        Rejected b key k.matrix context message randomizer m := by
    rintro m ⟨x, hxKey, hxMatrix, hAttempt, _, hDecided⟩
    refine ⟨x, hxKey, hxMatrix, hAttempt, ?_⟩
    rcases hDecided with ⟨_, hSome⟩ | ⟨hFails, _⟩
    · cases hSome
    · exact hFails
  refine Ends.bind (hSearch.weaken ?_) ?_
  · rintro stop (⟨_, hSpent, _⟩ | ⟨hFull, hAll⟩)
    · exact Or.inr (Or.inl hSpent)
    · refine Or.inr
        (Or.inr ⟨hFull, key, k.matrix, hKey, hMatrix, ?_⟩)
      intro m hm
      exact hRejected m (hAll m (Nat.zero_le m) (by omega))
  · rintro ⟨attempts, parts⟩
      ⟨n, hCount, ⟨x, rfl, hxMatrix, hAttempt, hx, hDecided⟩,
        hEarlier⟩
    rcases hDecided with ⟨hPasses, hParts⟩ | ⟨_, hNone⟩
    swap
    · cases hNone
    injection hParts with hParts
    rw [← hxMatrix] at hMatrix hRejected hEarlier
    refine Or.inl ⟨⟨attempts, parts⟩, rfl, x, n, ?_, hx, hCount,
      hParts⟩
    exact
      { secretKey := hKey
        fits := hContext
        matrix := hMatrix
        attempt := hAttempt
        passes := hPasses
        earlier := fun m hm =>
          hRejected m (hEarlier m (Nat.zero_le m) hm) }

theorem Signed.length_seed
    {b : Backend}
    {secretKey message context : Bytes}
    {randomizer : Seed}
    {n : Nat}
    (h : Signed b secretKey message context randomizer x n) :
    x.seed.length = p.challengeBytes :=
  h.attempt.length_seed

/- What is signed is accepted first and then packed. -/
theorem sign_outcome
    (p : ParameterSet)
    (b : Backend)
    (secretKey message context : Bytes)
    (randomizer : Seed) :
    (sign p b secretKey message context randomizer).outcome =
      accept p b secretKey message context randomizer >>=
        fun accepted =>
          Encoding.packSignature p accepted.parts := by
  unfold sign
  cases accept p b secretKey message context randomizer with
  | ok accepted => rfl
  | error stop => rfl

/- A signature is that of an accepted candidate. -/
theorem sign_ends
    (p : ParameterSet)
    (b : Backend)
    (secretKey message context : Bytes)
    (randomizer : Seed) :
    Ends (SignStops p b secretKey message context randomizer)
      (sign p b secretKey message context randomizer).outcome
      fun signature =>
        ∃ (x : Candidate p) (n : Nat),
          Signed b secretKey message context randomizer x n
            ∧ x.InRange
            ∧ Encoding.unpackSignature p signature =
              .ok x.signature
            ∧ signature.length = p.signatureBytes := by
  dsimp only [sign]
  rcases accept_ends p b secretKey message context randomizer
    with
    ⟨accepted, hOk, x, n, hSigned, hx, _, hParts⟩
      | ⟨stop, hStop, hAllowed⟩
  · rcases Encoding.packSignature_returns
        (Candidate.signature_inRange hSigned.length_seed
          hSigned.passes) with
      ⟨signature, hPack, hLength, hUnpack⟩
    rw [hOk]
    dsimp only
    rw [hParts]
    exact Or.inl
      ⟨signature, hPack, x, n, hSigned, hx, hUnpack, hLength⟩
  · rw [hStop]
    exact Or.inr ⟨stop, rfl, hAllowed⟩

/-
  Signing reports the number of its attempts and returns the
  packed candidate of the first one that passes.  Otherwise it
  reports no signature.
-/
theorem sign_refines
    (p : ParameterSet)
    (b : Backend)
    (secretKey message context : Bytes)
    (randomizer : Seed) :
    let report :=
      sign p b secretKey message context randomizer
    (∃ (x : Candidate p) (n : Nat) (signature : Bytes),
      Signed b secretKey message context randomizer x n
        ∧ Encoding.packSignature p x.signature = .ok signature
        ∧ report.events = [.signing p b, .signed p (n + 1)]
        ∧ report.outcome = .ok signature)
      ∨ ∃ stop,
        SignStops p b secretKey message context randomizer stop
          ∧ report.events = [.signing p b]
          ∧ report.outcome = .error stop := by
  dsimp only [sign]
  rcases accept_ends p b secretKey message context randomizer
    with
    ⟨accepted, hOk, x, n, hSigned, _, hCount, hParts⟩
      | ⟨stop, hStop, hAllowed⟩
  · left
    rcases Encoding.packSignature_returns
        (Candidate.signature_inRange hSigned.length_seed
          hSigned.passes) with
      ⟨signature, hPack, _⟩
    rw [hOk]
    dsimp only
    rw [hCount, hParts]
    exact ⟨x, n, signature, hSigned, hPack, rfl, hPack⟩
  · right
    rw [hStop]
    exact ⟨stop, hAllowed, rfl, rfl⟩

end Scheme

end LatticeSignature
