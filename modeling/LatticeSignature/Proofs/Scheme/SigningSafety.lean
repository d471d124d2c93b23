import LatticeSignature.Proofs.Scheme.KeySafety
import LatticeSignature.Proofs.Scheme.Signing

/-
  Signing stays in its words and in the bounds of its strings,
  with every secret key that is accepted and in every attempt.

  Main declarations:
    * `Guarded.prepare`, `Guarded.prepare_runs`
    * `Guarded.attempt`, `Guarded.attempt_runs`
    * `Guarded.search`, `Guarded.search_runs`
    * `Guarded.sign`, `Guarded.sign_runs`
    * `Scheme.keys_and_signing_in_bounds`
-/

------------------------------------------------------------
-- Guarded Signing
------------------------------------------------------------

namespace LatticeSignature

namespace Guarded

open Outcome Access Scheme

variable {n : Nat}
variable {p : ParameterSet}

/- Decode a secret key, and transform its secret vectors. -/
def prepare
    (p : ParameterSet)
    (b : Backend)
    (secretKey message context : Bytes)
    (randomizer : Seed) :
    Access SchemeError (Preparation p) := do
  let parts ← readSecretKey p secretKey
  let digest ←
    ofOutcome (messageDigest parts.tr.toList context message)
  let maskSeed :=
    Keccak.shake256
      (parts.key.toList ++ randomizer.toList ++ digest)
      digestBytes
  let matrix ← matrix p b parts.rho
  let s1 ← transform parts.s1
  let s2 ← transform parts.s2
  let t0 ← transform parts.t0
  return { digest, maskSeed, matrix, s1, s2, t0 }

/- The product of a matrix and a mask, in `[0, q)`. -/
def maskProduct
    {rows columns : Nat}
    (a : Matrix rows columns)
    (mask : PolyVec columns) :
    Access SchemeError (PolyVec rows) := do
  let transformed ← transform mask
  let product ← ofOutcome (a.apply transformed)
  let reduced ← ofOutcome product.reduce
  let w ← inverseTransform reduced
  liftNegative w

/- The commitment of the attempt numbered `kappa`. -/
def commit
    (b : Backend)
    (k : Preparation p)
    (kappa : UInt16) :
    Access SchemeError (Commitment p) := do
  let mask ← masks p b.secretStream k.maskSeed kappa
  let w ← maskProduct k.matrix mask
  let parts ← splitBuckets p.gamma2 w
  return ⟨mask, parts⟩

/- The challenge of a seed, transformed. -/
def transformedChallenge
    (p : ParameterSet)
    (seed : Bytes) : Access SchemeError Poly := do
  let c ← challenge p seed
  transformPoly c

/- The challenge seed for a commitment to a message. -/
def challengeSeed
    (p : ParameterSet)
    (digest : Bytes)
    (high : PolyVec p.rows) : Access SchemeError Bytes := do
  let packed ← writeCommitment p high
  return Keccak.shake256 (digest ++ packed) p.challengeBytes

/- The product of a transformed vector and a challenge. -/
def timesChallenge
    (v : PolyVec n)
    (c : Poly) : Access SchemeError (PolyVec n) := do
  let product ← ofOutcome (v.scale c)
  inverseTransform product

/- The response `y + c * s1` to a challenge. -/
def response
    (k : Preparation p)
    (c : Poly)
    (mask : PolyVec p.columns) :
    Access SchemeError (PolyVec p.columns) := do
  let cs1 ← timesChallenge k.s1 c
  ofOutcome (cs1.add mask)

/- The low parts `w0 - c * s2` that a response leaves. -/
def remainder
    (k : Preparation p)
    (c : Poly)
    (low : PolyVec p.rows) :
    Access SchemeError (PolyVec p.rows) := do
  let cs2 ← timesChallenge k.s2 c
  ofOutcome (low.sub cs2)

/- The candidate of an attempt, unless a check fails. -/
def attempt
    (b : Backend)
    (k : Preparation p)
    (kappa : UInt16) :
    Access SchemeError (Option (SignatureParts p)) := do
  let commitment ← commit b k kappa
  let high := commitment.parts.high
  let seed ← challengeSeed p k.digest high
  let c ← transformedChallenge p seed
  let z ← response k c commitment.mask
  let z ← ofOutcome z.reduce
  if ← exceedsNorm z (responseBound p) then
    return none
  else
    let low ← remainder k c commitment.parts.low
    let low ← ofOutcome low.reduce
    if ← exceedsNorm low (lowPartBound p) then
      return none
    else
      let ct0 ← timesChallenge k.t0 c
      let ct0 ← ofOutcome ct0.reduce
      if ← exceedsNorm ct0 p.gamma2 then
        return none
      else
        let corrected ← ofOutcome (low.add ct0)
        let hints := Hints.make p.buckets corrected high
        if hints.weight > p.omega then
          return none
        else
          return some ⟨seed, z, hints⟩

/- The first candidate, by attempts that are counted. -/
def search
    {ε α : Type}
    (attempt : Nat → Access ε (Option α)) :
    (remaining index : Nat) → Access ε (Nat × α)
  | 0, _ => ofOutcome (.error .overflow)
  | remaining + 1, index => do
      assuming (index + 1 < 4294967296) (.ok ())
      match ← attempt index with
      | some candidate => return (index + 1, candidate)
      | none => search attempt remaining (index + 1)

/- The accepted candidate of a message. -/
def accept
    (p : ParameterSet)
    (b : Backend)
    (secretKey message context : Bytes)
    (randomizer : Seed) :
    Access SchemeError (Accepted p) := do
  let k ← prepare p b secretKey message context randomizer
  let (attempts, parts) ←
    search
      (fun index => attempt b k (UInt16.ofNat index))
      maxAttempts
      0
  return ⟨attempts, parts⟩

/- The bytes of the accepted candidate. -/
def sign
    (p : ParameterSet)
    (b : Backend)
    (secretKey message context : Bytes)
    (randomizer : Seed) : Access SchemeError Bytes := do
  let accepted ←
    accept p b secretKey message context randomizer
  writeSignature p accepted.parts

------------------------------------------------------------
-- Runs of an Attempt
------------------------------------------------------------

/- Every accepted secret key is prepared in bounds. -/
theorem prepare_runs
    (p : ParameterSet)
    (b : Backend)
    (secretKey message context : Bytes)
    (randomizer : Seed) :
    Runs (prepare p b secretKey message context randomizer)
      (Scheme.prepare p b secretKey message context
        randomizer) := by
  refine (readSecretKey_runs p secretKey).bind_ends
    (Encoding.unpackSecretKey_decides p secretKey) ?_
  rintro parts ⟨hRange, _⟩
  have hEta : (p.eta : Int) ≤ Field.q - 1 :=
    p.eta_le.trans (by decide)
  refine (runs_ofOutcome _).bind ?_
  intro digest _
  refine (matrix_runs p b parts.rho).bind ?_
  intro a _
  refine (transform_runs
    (PolyVec.Within.mono hRange.s1 hEta)).bind ?_
  intro s1 _
  refine (transform_runs
    (PolyVec.Within.mono hRange.s2 hEta)).bind ?_
  intro s2 _
  refine (transform_runs
    ((Candidate.within_t0 hRange).mono (by decide))).bind ?_
  intro t0 _
  exact runs_pure _

theorem maskProduct_runs
    {rows columns : Nat}
    {a : Matrix rows columns}
    {mask : PolyVec columns}
    (ha : a.Canonical)
    (hMask : mask.Within (Field.q - 1))
    (hSize : columns ≤ 8) :
    Runs (maskProduct a mask) (Scheme.maskProduct a mask) :=
  matrixProduct_runs ha hMask hSize fun _ hRange =>
    liftNegative_runs (hRange.mono (by decide))

theorem commit_runs
    {key : SecretParts p}
    {k : Preparation p}
    (b : Backend)
    (hk : Prepared key k)
    (kappa : UInt16) :
    Runs (commit b k kappa) (Scheme.commit b k kappa) := by
  refine (masks_runs p b.secretStream k.maskSeed
    kappa).bind_returns
    (Sampling.masks_returns p b.secretStream kappa
      hk.maskSeed) ?_
  intro mask hMask
  have hWithin : mask.Within (Field.q - 1) :=
    within_response fun i => (hMask i).2
  refine (maskProduct_runs hk.matrix hWithin
    p.columns_le).bind_returns
    (maskProduct_returns hk.matrix hWithin p.columns_le) ?_
  rintro w ⟨hCanonical, _⟩
  refine (splitBuckets_runs p.buckets hCanonical).bind ?_
  intro parts _
  exact runs_pure _

theorem transformedChallenge_runs
    (p : ParameterSet)
    (seed : Bytes) :
    Runs (transformedChallenge p seed)
      (Scheme.transformedChallenge p seed) :=
  (challenge_runs p seed).bind_ends
    (Sampling.challenge_yields p seed) fun _ hChallenge =>
      transformPoly_runs (hChallenge.within.mono (by decide))

/- Bucket numbers fit into the fields of a commitment. -/
theorem fitsWidth_of_buckets
    {high : PolyVec p.rows}
    (h :
      ∀ (i : Fin p.rows) (k : Fin degree),
        0 ≤ high[i][k] ∧ high[i][k] < p.buckets.count)
    (i : Fin p.rows) :
    Packing.FitsWidth p.commitmentBits high[i] := by
  have hCount : p.buckets.count ≤ 2 ^ p.commitmentBits := by
    cases p <;> decide
  exact fun k => ⟨(h i k).1, (h i k).2.trans_le hCount⟩

theorem challengeSeed_runs
    (digest : Bytes)
    {high : PolyVec p.rows}
    (h :
      ∀ (i : Fin p.rows) (k : Fin degree),
        0 ≤ high[i][k] ∧ high[i][k] < p.buckets.count) :
    Runs (challengeSeed p digest high)
      (Scheme.challengeSeed p digest high) :=
  (writeCommitment_runs (fitsWidth_of_buckets h)).bind
    fun _ _ => runs_pure _

theorem timesChallenge_runs
    {v : PolyVec n}
    {c : Poly}
    {a : Fin n → Negacyclic.Element Residue}
    {d : Negacyclic.Element Residue}
    (hv : v.IsTransform a)
    (hc : Poly.IsTransform c d) :
    Runs (timesChallenge v c) (Scheme.timesChallenge v c) := by
  refine (runs_ofOutcome _).bind_returns
    (PolyVec.scale_returns hv hc) ?_
  intro product hProduct
  exact inverseTransform_runs fun i => (hProduct i).1

/- The buckets of a split commitment fit into its fields. -/
theorem highBits_in_buckets
    {high : PolyVec p.rows}
    {w : Fin p.rows → Negacyclic.Element Residue}
    (h :
      ∀ (i : Fin p.rows) (k : Fin degree),
        high[i][k] = p.buckets.highBits (w i k))
    (i : Fin p.rows)
    (k : Fin degree) :
    0 ≤ high[i][k] ∧ high[i][k] < p.buckets.count := by
  have hIn := p.buckets.inBucket_bits (w i k)
  rw [h i k]
  exact ⟨hIn.1, hIn.2.1⟩

/- A check of a norm, where reduction changes nothing. -/
theorem checked_runs
    {α : Type}
    {v : PolyVec n}
    {f : PolyVec n → Access SchemeError (Option α)}
    {g : PolyVec n → Outcome SchemeError (Option α)}
    (hv : v.Within 4194303)
    (bound : Int)
    (hNext : Runs (f v) (g v)) :
    Runs
      (do
        let w ← ofOutcome v.reduce
        if ← exceedsNorm w bound then
          return none
        else
          f w)
      (do
        let w ← v.reduce
        if w.exceedsNorm bound then
          return none
        else
          g w) := by
  rw [PolyVec.reduce_eq_self hv, ok_bind]
  refine (runs_ofOutcome _).ok_bind ?_
  refine (exceedsNorm_runs (hv.mono (by decide)) _).ok_bind ?_
  split
  · exact runs_pure _
  · exact hNext

/- The words of an attempt are small before every check. -/
theorem attempt_runs
    {key : SecretParts p}
    {k : Preparation p}
    (b : Backend)
    (hk : Prepared key k)
    (n : Nat) :
    Runs (attempt b k (UInt16.ofNat n))
      (Scheme.attempt b k (UInt16.ofNat n)) := by
  -- Each step follows the bounds that signing has shown for it.
  refine (commit_runs b hk _).bind_returns
    (commit_returns b hk n) ?_
  rintro ⟨mask, ⟨high, low⟩⟩ ⟨hMask, hParts⟩
  dsimp only at hMask hParts ⊢
  refine (challengeSeed_runs k.digest (highBits_in_buckets
    fun i j => (hParts i j).1)).bind ?_
  intro seed _
  refine (transformedChallenge_runs p seed).bind_ends
    (transformedChallenge_ends p seed) ?_
  rintro c ⟨challenge, _, hIsChallenge, hc⟩
  let x : Candidate p := ⟨key, k.matrix, mask, seed, challenge⟩
  have hx : x.InRange :=
    ⟨hk.inRange, hk.matrix, fun i => (hMask i).2, hIsChallenge⟩
  have hResponse :
      Runs (response k c mask) (Scheme.response k c mask) :=
    (timesChallenge_runs hk.s1 hc).bind
      fun _ _ => runs_ofOutcome _
  refine hResponse.bind_returns
    (response_returns (x := x) hx hk hc) ?_
  rintro z ⟨_, hz⟩
  refine checked_runs hz _ ?_
  have hRemainder :
      Runs (remainder k c low) (Scheme.remainder k c low) :=
    (timesChallenge_runs hk.s2 hc).bind
      fun _ _ => runs_ofOutcome _
  refine hRemainder.bind_returns
    (remainder_returns (x := x) hx hk hc
      fun i j => (hParts i j).2) ?_
  rintro r ⟨hr, _⟩
  refine checked_runs hr _ ?_
  refine (timesChallenge_runs hk.t0 hc).bind_returns
    (correction_returns (x := x) hx hk hc) ?_
  rintro ct0 ⟨hRange, _⟩
  refine checked_runs hRange _ ?_
  refine (runs_ofOutcome _).bind ?_
  intro corrected _
  split
  · exact runs_pure _
  · exact runs_pure _

------------------------------------------------------------
-- Runs of Signing
------------------------------------------------------------

/- The counter of the attempts stays below `2^32`. -/
theorem search_runs
    {ε α : Type}
    {attempt : Nat → Access ε (Option α)}
    {attempt' : Nat → Outcome ε (Option α)}
    (h : ∀ n, Runs (attempt n) (attempt' n))
    (remaining index : Nat)
    (hCount : index + remaining < 4294967296) :
    Runs (search attempt remaining index)
      (Scheme.search attempt' remaining index) := by
  induction remaining generalizing index with
  | zero => exact runs_ofOutcome _
  | succ remaining ih =>
      unfold search Scheme.search
      refine (runs_assuming (by omega) _).ok_bind ?_
      refine (h index).bind ?_
      intro r _
      cases r with
      | some candidate => exact runs_pure _
      | none => exact ih (index + 1) (by omega)

theorem accept_runs
    (p : ParameterSet)
    (b : Backend)
    (secretKey message context : Bytes)
    (randomizer : Seed) :
    Runs (accept p b secretKey message context randomizer)
      (Scheme.accept p b secretKey message context
        randomizer) := by
  refine (prepare_runs p b secretKey message context
    randomizer).bind_ends
    (prepare_ends p b secretKey message context randomizer) ?_
  rintro k ⟨key, _, _, _, _, _, hk⟩
  refine (search_runs (fun n => attempt_runs b hk n) maxAttempts
    0 (by decide)).bind ?_
  rintro ⟨attempts, parts⟩ _
  exact runs_pure _

theorem sign_runs
    (p : ParameterSet)
    (b : Backend)
    (secretKey message context : Bytes)
    (randomizer : Seed) :
    Runs (sign p b secretKey message context randomizer)
      (Scheme.sign p b secretKey message context
        randomizer).outcome := by
  rw [sign_outcome]
  refine (accept_runs p b secretKey message context
    randomizer).bind_ends
    (accept_ends p b secretKey message context randomizer) ?_
  rintro ⟨attempts, parts⟩ ⟨x, n, hSigned, _, _, hParts⟩
  dsimp only at hParts ⊢
  rw [hParts]
  exact writeSignature_runs
    (Candidate.signature_inRange hSigned.length_seed
      hSigned.passes)

end Guarded

------------------------------------------------------------
-- Safety
------------------------------------------------------------

namespace Scheme

open Outcome Access

/- Preparations refuse what they cannot use. -/
theorem prepare_ne_overflow
    (p : ParameterSet)
    (b : Backend)
    (secretKey message context : Bytes)
    (randomizer : Seed) :
    prepare p b secretKey message context randomizer ≠
      .error .overflow := by
  refine (prepare_ends p b secretKey message context
    randomizer).ne_error ?_
  rintro (hUnpack | ⟨hStop, _⟩ | ⟨hStop, _⟩)
  · exact (Encoding.unpackSecretKey_decides p
      secretKey).noOverflow.ne_overflow hUnpack
  · cases hStop
  · cases hStop

/- A search overflows after it has rejected all attempts. -/
theorem attempt_eq_none_of_search_overflow
    {p : ParameterSet}
    {key : SecretParts p}
    {k : Preparation p}
    {b : Backend}
    (hk : Prepared key k)
    (hSearch :
      search (fun n => attempt b k (UInt16.ofNat n)) maxAttempts
        0 = .error .overflow)
    {n : Nat}
    (hn : n < maxAttempts) :
    attempt b k (UInt16.ofNat n) = .ok none := by
  have hAttempts :
      ∀ m,
        Yields (attempt b k (UInt16.ofNat m)) fun r =>
          attempt b k (UInt16.ofNat m) = .ok r :=
    fun m => (attempt_yields b hk m).with_eq.mono
      fun _ hOk => hOk.1
  rcases search_ends hAttempts maxAttempts 0 with
    ⟨_, hOk, _⟩ | ⟨stop, hStop, hReason⟩
  · rw [hSearch] at hOk
    cases hOk
  · rw [hSearch] at hStop
    cases hStop
    rcases hReason with ⟨_, hSpent, _⟩ | ⟨_, hRejected⟩
    · cases hSpent
    · exact hRejected n (Nat.zero_le n) (by omega)

/- Accepted candidates are always written. -/
theorem accept_of_sign_overflow
    {p : ParameterSet}
    {b : Backend}
    {secretKey message context : Bytes}
    {randomizer : Seed}
    (h :
      (sign p b secretKey message context randomizer).outcome =
        .error .overflow) :
    accept p b secretKey message context randomizer =
      .error .overflow := by
  rw [sign_outcome] at h
  refine eq_error_of_bind h ?_
  intro accepted hOk hStop
  rcases (accept_ends p b secretKey message context
      randomizer).of_eq_ok hOk with
    ⟨x, n, hSigned, _, _, hParts⟩
  rcases Encoding.packSignature_returns
      (Candidate.signature_inRange hSigned.length_seed
        hSigned.passes) with
    ⟨signature, hPack, _⟩
  rw [hParts, hPack] at hStop
  cases hStop

/-
  A message is signed in bounds: before the attempts, in each
  of them, and in the bytes that are returned.  Only the
  counter of the attempts can overflow.
-/
structure SignsInBounds
    (p : ParameterSet)
    (b : Backend)
    (secretKey message context : Bytes)
    (randomizer : Seed) : Prop where
  prepared :
    Runs
        (Guarded.prepare p b secretKey message context
          randomizer)
        (prepare p b secretKey message context randomizer)
      ∧ prepare p b secretKey message context randomizer ≠
        .error .overflow
  attempts :
    ∀ k : Preparation p,
      prepare p b secretKey message context randomizer =
          .ok k →
        ∀ n : Nat,
          Runs (Guarded.attempt b k (UInt16.ofNat n))
              (attempt b k (UInt16.ofNat n))
            ∧ attempt b k (UInt16.ofNat n) ≠ .error .overflow
  signed :
    Runs
      (Guarded.sign p b secretKey message context randomizer)
      (sign p b secretKey message context randomizer).outcome
  counted :
    (sign p b secretKey message context randomizer).outcome =
        .error .overflow →
      ∀ k : Preparation p,
        prepare p b secretKey message context randomizer =
            .ok k →
          ∀ n < maxAttempts,
            attempt b k (UInt16.ofNat n) = .ok none

theorem signsInBounds
    (p : ParameterSet)
    (b : Backend)
    (secretKey message context : Bytes)
    (randomizer : Seed) :
    SignsInBounds p b secretKey message context randomizer := by
  have hPrepared :=
    prepare_ends p b secretKey message context randomizer
  constructor
  · exact ⟨Guarded.prepare_runs p b secretKey message context
      randomizer, prepare_ne_overflow p b secretKey message
        context randomizer⟩
  · intro k hOk n
    rcases hPrepared.of_eq_ok hOk with ⟨key, _, _, _, _, _, hk⟩
    exact ⟨Guarded.attempt_runs b hk n,
      (attempt_yields b hk n).noOverflow.ne_overflow⟩
  · exact Guarded.sign_runs p b secretKey message context
      randomizer
  · intro hOverflow k hOk n hn
    rcases hPrepared.of_eq_ok hOk with ⟨key, _, _, _, _, _, hk⟩
    have hAccept := accept_of_sign_overflow hOverflow
    rw [accept, hOk, ok_bind] at hAccept
    exact attempt_eq_none_of_search_overflow hk
      (eq_error_of_bind hAccept fun _ _ => nofun) hn

/-
  Keys are made and restored in bounds, and messages are
  signed in bounds with every string of bytes in place of a
  secret key.
-/
theorem keys_and_signing_in_bounds
    (p : ParameterSet)
    (b : Backend) :
    (∀ seed : Seed,
        Runs (Guarded.keyPairOfSeed p b seed)
            (keyPairOfSeed p b seed)
          ∧ keyPairOfSeed p b seed ≠ .error .overflow)
      ∧ (∀ secretKey : Bytes,
        Runs (Guarded.publicKeyOfSecret p b secretKey)
            (publicKeyOfSecret p b secretKey)
          ∧ publicKeyOfSecret p b secretKey ≠
            .error .overflow)
      ∧ ∀ (secretKey message context : Bytes)
          (randomizer : Seed),
        SignsInBounds p b secretKey message context
          randomizer :=
  ⟨fun seed =>
      ⟨Guarded.keyPairOfSeed_runs p b seed,
        keyPairOfSeed_ne_overflow p b seed⟩,
    fun secretKey =>
      ⟨Guarded.publicKeyOfSecret_runs p b secretKey,
        publicKeyOfSecret_ne_overflow p b secretKey⟩,
    signsInBounds p b⟩

end Scheme

end LatticeSignature
