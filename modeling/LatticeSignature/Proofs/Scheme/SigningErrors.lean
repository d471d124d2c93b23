import LatticeSignature.Proofs.Encoding.KeyFormat
import LatticeSignature.Proofs.Scheme.Signing

/-
  Signing refuses a secret key or a context, and nothing else.
  An attempt is never refused: it leads to a signature or to
  the next attempt.

  Main declarations:
    * `Scheme.refusal?`
    * `Scheme.prepare_eq_fail`, `Scheme.prepare_yields`
    * `Scheme.signatureOf`
    * `Scheme.AttemptSteps`, `Scheme.attemptSteps_of_prepared`
    * `Scheme.search_bind`
    * `Scheme.sign_outcome_eq_search`
    * `Scheme.sign_first_signature`, `Scheme.sign_eq_fail_iff`
    * `Scheme.sign_error_set`
-/

------------------------------------------------------------
-- Refusals
------------------------------------------------------------

namespace LatticeSignature

namespace Scheme

open Outcome Encoding

variable {p : ParameterSet}
variable {secretKey context : Bytes}
variable {cause : SchemeError}

/-
  The cause for which signing is refused, if it is.  The size
  of the secret key is tested first and the context last.
-/
def refusal?
    (p : ParameterSet)
    (secretKey context : Bytes) : Option SchemeError :=
  if secretKey.length ≠ p.secretKeyBytes then
    some (.invalidKeySize p.secretKeyBytes secretKey.length)
  else if ¬ SecretsFit p (secretFields p secretKey) then
    some (.deserialization "secret coefficient out of range")
  else if 255 < context.length then
    some (.contextTooLong context.length)
  else
    none

theorem refusal?_eq_none_iff :
    refusal? p secretKey context = none
      ↔ secretKey.length = p.secretKeyBytes
        ∧ SecretsFit p (secretFields p secretKey)
        ∧ context.length ≤ 255 := by
  unfold refusal?
  by_cases hSize : secretKey.length = p.secretKeyBytes
  · by_cases hFit : SecretsFit p (secretFields p secretKey)
    · simp [hSize, hFit]
    · simp [hSize, hFit]
  · simp [hSize]

/- A call that is refused does not begin. -/
theorem prepare_eq_fail
    (b : Backend)
    (message : Bytes)
    (randomizer : Seed)
    (h : refusal? p secretKey context = some cause) :
    prepare p b secretKey message context randomizer =
      fail cause := by
  unfold refusal? at h
  by_cases hSize : secretKey.length ≠ p.secretKeyBytes
  · rw [if_pos hSize] at h
    cases h
    rw [prepare, unpackSecretKey_eq_fail hSize]
    rfl
  rw [if_neg hSize] at h
  have hEnds := unpackSecretKey_ends (not_ne_iff.1 hSize)
  by_cases hFit : SecretsFit p (secretFields p secretKey)
  · rw [if_neg (not_not.2 hFit)] at h
    rcases hEnds with ⟨key, hKey, _⟩ | ⟨_, _, _, hRefused⟩
    · by_cases hLong : 255 < context.length
      · rw [if_pos hLong] at h
        cases h
        rw [prepare, hKey, ok_bind,
          messageDigest_eq_fail _ message (not_le.2 hLong)]
        rfl
      · rw [if_neg hLong] at h
        cases h
    · exact absurd hFit hRefused
  · rw [if_pos hFit] at h
    cases h
    rcases hEnds with ⟨_, _, hAccepted⟩ | ⟨stop, hStop, rfl, _⟩
    · exact absurd hAccepted hFit
    · rw [prepare, hStop]
      rfl

/- A call that is not refused begins. -/
theorem prepare_yields
    (b : Backend)
    (message : Bytes)
    (randomizer : Seed)
    (h : refusal? p secretKey context = none) :
    Yields (prepare p b secretKey message context randomizer)
      fun k => ∃ key, Prepared key k := by
  rcases refusal?_eq_none_iff.1 h with ⟨hSize, hFit, hFits⟩
  rcases (exists_unpackSecretKey_iff hSize).2 hFit with
    ⟨key, hKey⟩
  refine ((prepare_ends p b secretKey message context
    randomizer).weaken ?_).mono ?_
  · intro stop hStop
    rcases hStop with hRefused | ⟨_, hLong⟩ | ⟨hSpent, _⟩
    · rw [hKey] at hRefused
      cases hRefused
    · exact absurd hFits (not_le.2 hLong)
    · exact hSpent
  · intro k hk
    rcases hk with ⟨key, _, _, _, _, _, hPrepared⟩
    exact ⟨key, hPrepared⟩

------------------------------------------------------------
-- Attempts
------------------------------------------------------------

/- The signature that an attempt leads to, if it passes. -/
def signatureOf
    (b : Backend)
    (k : Preparation p)
    (n : Nat) : Outcome SchemeError (Option Bytes) := do
  let candidate ← attempt b k (UInt16.ofNat n)
  candidate.mapM (packSignature p)

/-
  What the steps of an attempt do: its mask streams start, its
  commitment is made and packed, and its candidate is packed
  if it has one.  Only a challenge can fail to be sampled.
-/
structure AttemptSteps
    (b : Backend)
    (k : Preparation p)
    (n : Nat) : Prop where
  streams :
    ∀ i : Fin p.columns,
      Returns
        (Sampling.seededReader b.secretStream k.maskSeed
          (Sampling.maskNonce p (UInt16.ofNat n) i.val))
        fun _ => True
  commitment :
    Returns (commit b k (UInt16.ofNat n)) fun _ => True
  packed :
    ∀ high : PolyVec p.rows,
      Returns (commitmentBytes p high) fun s =>
        s.length = p.rows * p.commitmentPolyBytes
  challenge :
    ∀ seed : Bytes,
      Ends
        (fun stop =>
          stop = .exhausted
            ∧ Sampling.Starves p.tau
              (Keccak.extend Keccak.rate256 seed))
        (transformedChallenge p seed)
        fun _ => True
  signature :
    ∀ parts,
      attempt b k (UInt16.ofNat n) = .ok (some parts) →
        Returns (packSignature p parts) fun s =>
          s.length = p.signatureBytes
  ends :
    Ends (AttemptStarves b k n) (signatureOf b k n) fun made =>
      ∀ s ∈ made, s.length = p.signatureBytes

theorem length_encodeCommitment
    (high : PolyVec p.rows) :
    (encodeCommitment p high).length =
      p.rows * p.commitmentPolyBytes := by
  unfold encodeCommitment
  rw [List.length_flatMap]
  simp only [Packing.length_bytes, List.map_const',
    Vector.length_toList, List.sum_replicate, Nat.nsmul_eq_mul]
  rfl

/- The candidate of an attempt can be packed. -/
theorem packSignature_of_attempt
    {key : SecretParts p}
    {b : Backend}
    {k : Preparation p}
    {n : Nat}
    {parts : SignatureParts p}
    (hk : Prepared key k)
    (hAttempt :
      attempt b k (UInt16.ofNat n) = .ok (some parts)) :
    Returns (packSignature p parts) fun s =>
      s.length = p.signatureBytes := by
  rcases (attempt_ends b hk n).of_eq_ok hAttempt with
    ⟨x, _, _, hIsAttempt, _, hDecided⟩
  rcases hDecided with ⟨hPasses, hSome⟩ | ⟨_, hNone⟩
  · cases hSome
    have hRange :=
      Candidate.signature_inRange hIsAttempt.length_seed hPasses
    exact (packSignature_returns hRange).mono fun _ h => h.1
  · cases hNone

/- No step of an attempt is refused. -/
theorem attemptSteps_of_prepared
    {key : SecretParts p}
    {k : Preparation p}
    (b : Backend)
    (hk : Prepared key k)
    (n : Nat) :
    AttemptSteps b k n where
  streams := fun i =>
    Sampling.seededReader_returns _ _ hk.maskSeed
  commitment := (commit_returns b hk n).mono fun _ _ => trivial
  packed := by
    intro high
    rw [commitmentBytes_eq_ok]
    exact returns_ok (length_encodeCommitment high)
  challenge := by
    intro seed
    refine ((transformedChallenge_ends p seed).weaken ?_).mono
      fun _ _ => trivial
    intro stop hStop
    exact ⟨hStop.1, Sampling.starves_of_challenge hStop.2⟩
  signature := fun parts => packSignature_of_attempt hk
  ends := by
    refine (attempt_ends b hk n).with_eq.bind ?_
    intro candidate hCandidate
    cases candidate with
    | none => exact Or.inl (returns_ok nofun)
    | some parts =>
        rcases packSignature_of_attempt hk hCandidate.1 with
          ⟨s, hPack, hLength⟩
        refine Or.inl ⟨some s, ?_, ?_⟩
        · change (packSignature p parts >>= _) = _
          rw [hPack]
          rfl
        · intro s' hs'
          cases hs'
          exact hLength

------------------------------------------------------------
-- Runs
------------------------------------------------------------

/- What is done with the result of a search may be done early. -/
theorem search_bind
    {ε α β : Type}
    (attempt : Nat → Outcome ε (Option α))
    (f : α → Outcome ε β)
    (remaining index : Nat) :
    (search attempt remaining index >>= fun r => f r.2) =
      search (fun n => attempt n >>= fun r => r.mapM f)
          remaining index >>=
        fun r => .ok r.2 := by
  induction remaining generalizing index with
  | zero => rfl
  | succ remaining ih =>
      unfold search
      cases attempt index with
      | error stop => rfl
      | ok candidate =>
          cases candidate with
          | none => exact ih (index + 1)
          | some a =>
              change f a =
                ((f a >>= fun b => .ok (some b)) >>= _) >>= _
              cases f a <;> rfl

/- Signing searches for the first attempt with a signature. -/
theorem sign_outcome_eq_search
    (p : ParameterSet)
    (b : Backend)
    (secretKey message context : Bytes)
    (randomizer : Seed) :
    (sign p b secretKey message context randomizer).outcome =
      prepare p b secretKey message context randomizer >>=
        fun k =>
          search (signatureOf b k) maxAttempts 0 >>= fun r =>
            .ok r.2 := by
  rw [sign_outcome, accept, bind_assoc]
  apply bind_congr
  intro k
  rw [bind_assoc]
  exact
    search_bind (fun n => attempt b k (UInt16.ofNat n))
      (packSignature p) maxAttempts 0

/-
  The ways in which a call of signing that is not refused has
  no signature: its matrix is not sampled, the challenge of an
  attempt is not sampled after others that were rejected, or
  all the attempts that can be counted are rejected.
-/
def RunStops
    (b : Backend)
    (start : Outcome SchemeError (Preparation p))
    (stop : Stop SchemeError) : Prop :=
  start = .error .exhausted ∧ stop = .exhausted
    ∨ ∃ k,
      start = .ok k
        ∧ ((∃ n,
            AttemptStarves b k n stop
              ∧ ∀ m < n, signatureOf b k m = .ok none)
          ∨ stop = .overflow
            ∧ ∀ m < maxAttempts, signatureOf b k m = .ok none)

/- None of these ways is a refusal. -/
theorem RunStops.ne_error
    {b : Backend}
    {start : Outcome SchemeError (Preparation p)}
    {stop : Stop SchemeError}
    (h : RunStops b start stop) :
    stop ≠ .error cause := by
  rcases h with
    ⟨_, rfl⟩ | ⟨k, _, ⟨n, ⟨rfl, _⟩, _⟩ | ⟨rfl, _⟩⟩
  · exact nofun
  · exact nofun
  · exact nofun

/- The first attempt that leads to a signature. -/
def FirstSignature
    (b : Backend)
    (start : Outcome SchemeError (Preparation p))
    (s : Bytes) : Prop :=
  ∃ k n,
    start = .ok k
      ∧ signatureOf b k n = .ok (some s)
      ∧ ∀ m < n, signatureOf b k m = .ok none

/- Attempts are made until one of them leads to a signature. -/
theorem sign_first_signature
    (b : Backend)
    (message : Bytes)
    (randomizer : Seed)
    (h : refusal? p secretKey context = none) :
    let start := prepare p b secretKey message context randomizer
    Ends (RunStops b start)
      (sign p b secretKey message context randomizer).outcome
      fun s =>
        s.length = p.signatureBytes ∧ FirstSignature b start s := by
  intro start
  have hStart :=
    (prepare_yields b message randomizer h).with_eq.with_stop
  rw [sign_outcome_eq_search]
  refine Ends.bind (hStart.weaken ?_) ?_
  · intro stop hStop
    rcases hStop with ⟨hStopped, rfl⟩
    exact Or.inl ⟨hStopped, rfl⟩
  intro k hk
  rcases hk with ⟨hOk, key, hPrepared⟩
  have hAttempts :=
    search_ends
      (fun n =>
        (attemptSteps_of_prepared b hPrepared n).ends.with_eq)
      maxAttempts 0
  refine Ends.bind (hAttempts.weaken ?_) ?_
  · intro stop hStop
    refine Or.inr ⟨k, hOk, ?_⟩
    rcases hStop with ⟨n, hStarves, hEarlier⟩ | ⟨hFull, hAll⟩
    · refine Or.inl ⟨n, hStarves, ?_⟩
      intro m hm
      exact (hEarlier m (Nat.zero_le m) hm).1
    · refine Or.inr ⟨hFull, ?_⟩
      intro m hm
      exact (hAll m (Nat.zero_le m) (by omega)).1
  · intro r hr
    rcases hr with ⟨n, _, ⟨hMade, hLength⟩, hEarlier⟩
    apply Returns.ends
    apply returns_ok
    refine ⟨hLength r.2 rfl, k, n, hOk, hMade, ?_⟩
    intro m hm
    exact (hEarlier m (Nat.zero_le m) hm).1

/- A refusal has the cause that the arguments give. -/
theorem sign_eq_fail_iff
    (p : ParameterSet)
    (b : Backend)
    (secretKey message context : Bytes)
    (randomizer : Seed)
    (cause : SchemeError) :
    (sign p b secretKey message context randomizer).outcome =
        fail cause
      ↔ refusal? p secretKey context = some cause := by
  cases hRefusal : refusal? p secretKey context with
  | some cause' =>
      rw [sign_outcome_eq_search,
        prepare_eq_fail b message randomizer hRefusal,
        Option.some_inj]
      constructor
      · intro hSame
        injection hSame with hSame
        injection hSame
      · intro hSame
        rw [hSame]
        rfl
  | none =>
      have hNotRefused :
          (sign p b secretKey message context
            randomizer).outcome ≠ .error (.error cause) := by
        apply Ends.ne_error
          (sign_first_signature b message randomizer hRefusal)
        intro hStop
        exact hStop.ne_error rfl
      constructor
      · intro hFail
        exact absurd hFail hNotRefused
      · intro hSome
        cases hSome

/-
  Signing is refused exactly for the causes that its arguments
  give.  Otherwise no step of any attempt is refused, whatever
  its number, and the first attempt that is not rejected leads
  to a signature.
-/
theorem sign_error_set
    (p : ParameterSet)
    (b : Backend)
    (secretKey message context : Bytes)
    (randomizer : Seed) :
    let start := prepare p b secretKey message context randomizer
    let outcome :=
      (sign p b secretKey message context randomizer).outcome
    (∀ cause,
      outcome = fail cause
        ↔ refusal? p secretKey context = some cause)
      ∧ (refusal? p secretKey context = none →
        Yields start (fun k => ∀ n, AttemptSteps b k n)
          ∧ Ends (RunStops b start) outcome fun s =>
            s.length = p.signatureBytes
              ∧ FirstSignature b start s) := by
  intro start outcome
  constructor
  · intro cause
    exact sign_eq_fail_iff p b secretKey message context
      randomizer cause
  · intro hRefusal
    constructor
    · refine (prepare_yields b message randomizer
        hRefusal).mono ?_
      intro k hk n
      rcases hk with ⟨key, hPrepared⟩
      exact attemptSteps_of_prepared b hPrepared n
    · exact sign_first_signature b message randomizer hRefusal

end Scheme

end LatticeSignature
