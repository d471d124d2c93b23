import LatticeSignature.Proofs.Recording
import LatticeSignature.Proofs.Scheme.Signing
import LatticeSignature.Proofs.Stream.Separation
import Mathlib.Data.List.Nodup
import Mathlib.Data.Nat.Periodic

/-
  The nonces of the masks count through a run of signing modulo
  `2^16`.  No mask stream is opened twice as long as the nonces
  do not wrap around, and attempts repeat once their counter
  does.

  Main declarations:
    * `Scheme.tryMask`, `Scheme.attempt_eq_masks_bind`
    * `Recorded.attempt`, `Recorded.search`, `Recorded.sign`
    * `Recorded.outcome_sign`
    * `Scheme.maskOpenings`, `Scheme.nodup_maskOpenings_iff`
    * `Scheme.nodup_maskStreams`
    * `Scheme.search_periodic`
    * `Recorded.Calls`, `Recorded.search_calls`
    * `Recorded.MaskRun`
    * `Scheme.sign_eq_overflow`
    * `Scheme.nonce_discipline`
-/

------------------------------------------------------------
-- Attempts with a Mask
------------------------------------------------------------

namespace LatticeSignature

open Outcome

variable {p : ParameterSet}

namespace Scheme

/- What an attempt does once its mask is sampled. -/
def tryMask
    (k : Preparation p)
    (mask : PolyVec p.columns) :
    Outcome SchemeError (Option (SignatureParts p)) := do
  let w ← maskProduct k.matrix mask
  let parts ← w.splitBuckets p.buckets
  let seed ← challengeSeed p k.digest parts.high
  let c ← transformedChallenge p seed
  let z ← (← response k c mask).reduce
  if z.exceedsNorm (responseBound p) then
    return none
  else
    let low ← (← remainder k c parts.low).reduce
    if low.exceedsNorm (lowPartBound p) then
      return none
    else
      let ct0 ← (← correction k c).reduce
      if ct0.exceedsNorm p.gamma2 then
        return none
      else
        let corrected ← low.add ct0
        let hints := Hints.make p.buckets corrected parts.high
        if hints.weight > p.omega then
          return none
        else
          return some ⟨seed, z, hints⟩

/- An attempt depends on its number through its mask alone. -/
theorem attempt_eq_masks_bind
    (b : Backend)
    (k : Preparation p)
    (kappa : UInt16) :
    attempt b k kappa =
      Sampling.masks p b.secretStream k.maskSeed kappa >>=
        tryMask k := by
  unfold attempt commit
  rw [bind_assoc]
  apply bind_congr
  intro mask
  rw [bind_assoc]
  apply bind_congr
  intro w
  rw [bind_assoc]
  rfl

end Scheme

------------------------------------------------------------
-- Signing with a Record of Its Mask Streams
------------------------------------------------------------

namespace Recorded

/- The mask vector of an attempt. -/
def masks
    (p : ParameterSet)
    (kind : StreamKind)
    (seed : Bytes)
    (kappa : UInt16) :
    Recorded SchemeError (PolyVec p.columns) :=
  tabulate fun i =>
    let nonce := Sampling.maskNonce p kappa i.val
    opens ⟨kind, seed, nonce⟩
      (Sampling.seededMask p kind seed nonce)

/- The candidate of an attempt, unless a check fails. -/
def attempt
    (b : Backend)
    (k : Scheme.Preparation p)
    (kappa : UInt16) :
    Recorded SchemeError (Option (SignatureParts p)) := do
  let mask ← masks p b.secretStream k.maskSeed kappa
  silent (Scheme.tryMask k mask)

/-
  The first candidate.  The number of a mask and the number of
  attempts are counted apart, the former modulo `2^16`.
-/
def search
    (b : Backend)
    (k : Scheme.Preparation p) :
    (remaining : Nat) →
      (kappa : UInt16) →
      (attempts : Nat) →
      Recorded SchemeError (Nat × SignatureParts p)
  | 0, _, _ => silent (.error .overflow)
  | remaining + 1, kappa, attempts => do
      match ← attempt b k kappa with
      | some candidate => return (attempts + 1, candidate)
      | none => search b k remaining (kappa + 1) (attempts + 1)

/- The accepted candidate of a message. -/
def accept
    (p : ParameterSet)
    (b : Backend)
    (secretKey message context : Bytes)
    (randomizer : Seed) :
    Recorded SchemeError (Scheme.Accepted p) := do
  let k ←
    silent
      (Scheme.prepare p b secretKey message context randomizer)
  let (attempts, parts) ← search b k Scheme.maxAttempts 0 0
  return ⟨attempts, parts⟩

/- Signing. -/
def sign
    (p : ParameterSet)
    (b : Backend)
    (secretKey message context : Bytes)
    (randomizer : Seed) : Recorded SchemeError Bytes := do
  let accepted ←
    accept p b secretKey message context randomizer
  silent (Encoding.packSignature p accepted.parts)

------------------------------------------------------------
-- The Record Has No Influence
------------------------------------------------------------

theorem outcome_masks
    (p : ParameterSet)
    (kind : StreamKind)
    (seed : Bytes)
    (kappa : UInt16) :
    (masks p kind seed kappa).outcome =
      Sampling.masks p kind seed kappa :=
  outcome_tabulate _

theorem outcome_attempt
    (b : Backend)
    (k : Scheme.Preparation p)
    (kappa : UInt16) :
    (attempt b k kappa).outcome = Scheme.attempt b k kappa := by
  rw [Scheme.attempt_eq_masks_bind, ← outcome_masks]
  exact outcome_bind _ _

/- Counting masks modulo `2^16` gives the numbers of attempts. -/
theorem outcome_search
    (b : Backend)
    (k : Scheme.Preparation p)
    (remaining index : Nat) :
    (search b k remaining (UInt16.ofNat index) index).outcome =
      Scheme.search
        (fun n => Scheme.attempt b k (UInt16.ofNat n))
        remaining index := by
  induction remaining generalizing index with
  | zero => rfl
  | succ remaining ih =>
      rw [search, Scheme.search, outcome_bind, outcome_attempt]
      apply bind_congr
      intro r
      cases r with
      | some candidate => rfl
      | none =>
          have hNext :
              UInt16.ofNat index + 1 = UInt16.ofNat (index + 1) :=
            (UInt16.ofNat_add index 1).symm
          dsimp only
          rw [hNext]
          exact ih (index + 1)

theorem outcome_accept
    (p : ParameterSet)
    (b : Backend)
    (secretKey message context : Bytes)
    (randomizer : Seed) :
    (accept p b secretKey message context randomizer).outcome =
      Scheme.accept p b secretKey message context
        randomizer := by
  unfold accept Scheme.accept
  rw [outcome_bind]
  apply bind_congr
  intro k
  rw [outcome_bind, ← outcome_search b k Scheme.maxAttempts 0]
  rfl

theorem outcome_sign
    (p : ParameterSet)
    (b : Backend)
    (secretKey message context : Bytes)
    (randomizer : Seed) :
    (sign p b secretKey message context randomizer).outcome =
      (Scheme.sign p b secretKey message context
        randomizer).outcome := by
  rw [Scheme.sign_outcome, sign, outcome_bind, outcome_accept]
  rfl

end Recorded

------------------------------------------------------------
-- Mask Streams
------------------------------------------------------------

namespace Scheme

/- The opening of the mask stream numbered `j`, modulo `2^16`. -/
def maskOpening
    (b : Backend)
    (seed : Bytes)
    (j : Nat) : Opening :=
  ⟨b.secretStream, seed, UInt16.ofNat j⟩

/- The openings of the first mask streams, in order. -/
def maskOpenings
    (b : Backend)
    (seed : Bytes)
    (count : Nat) : List Opening :=
  (List.range count).map (maskOpening b seed)

/- Nonces are the same when their numbers agree modulo `2^16`. -/
theorem ofNat_nonce_eq_iff
    {i j : Nat} :
    UInt16.ofNat i = UInt16.ofNat j
      ↔ i % 2 ^ 16 = j % 2 ^ 16 := by
  rw [← UInt16.toNat_inj, UInt16.toNat_ofNat',
    UInt16.toNat_ofNat']

theorem maskOpening_eq_iff
    {b : Backend}
    {seed : Bytes}
    {i j : Nat} :
    maskOpening b seed i = maskOpening b seed j
      ↔ i % 2 ^ 16 = j % 2 ^ 16 := by
  rw [← ofNat_nonce_eq_iff]
  simp [maskOpening]

/- The first repetition is that of the first nonce. -/
theorem nodup_maskOpenings_iff
    {b : Backend}
    {seed : Bytes}
    {count : Nat} :
    (maskOpenings b seed count).Nodup ↔ count ≤ 2 ^ 16 := by
  unfold maskOpenings
  rw [List.nodup_map_iff_inj_on List.nodup_range]
  simp only [List.mem_range, maskOpening_eq_iff]
  constructor
  · intro hDistinct
    by_contra hMore
    -- Nonces 0 and 2^16 are both in the list, and the same.
    have hFirst :=
      hDistinct 0 (by omega) (2 ^ 16) (by omega) (by decide)
    exact absurd hFirst (by decide)
  · intro hCount i hi j hj hSame
    omega

/- Streams of masks that are numbered apart are distinct. -/
theorem nodup_maskStreams
    {b : Backend}
    {seed : Bytes}
    {count : Nat}
    (hLower : 32 ≤ seed.length)
    (hUpper : seed.length ≤ 128)
    (hCount : count ≤ 2 ^ 16) :
    ((maskOpenings b seed count).map Opening.stream).Nodup := by
  rw [List.nodup_map_iff_inj_on (nodup_maskOpenings_iff.2 hCount)]
  unfold maskOpenings
  intro o ho o' ho' hSame
  rcases List.mem_map.1 ho with ⟨i, _, rfl⟩
  rcases List.mem_map.1 ho' with ⟨j, _, rfl⟩
  rcases SeededStream.start_returns b.secretStream
      (UInt16.ofNat i) hLower with
    ⟨stream, hStart, _⟩
  have hNonce :=
    SeededStream.start_injective hUpper hStart
      (hSame.symm.trans hStart)
  rw [maskOpening, hNonce]
  rfl

------------------------------------------------------------
-- Periods
------------------------------------------------------------

/- A search among attempts that repeat a rejection never ends. -/
theorem search_periodic
    {ε α : Type}
    {attempt : Nat → Outcome ε (Option α)}
    {period : Nat}
    (hPeriod : Function.Periodic attempt period)
    (hRejected : ∀ n < period, attempt n = .ok none)
    (hPositive : 0 < period)
    (remaining index : Nat) :
    search attempt remaining index = .error .overflow := by
  induction remaining generalizing index with
  | zero => rfl
  | succ remaining ih =>
      have hNone : attempt index = .ok none := by
        rw [← hPeriod.map_mod_nat]
        exact hRejected _ (Nat.mod_lt _ hPositive)
      rw [search, hNone, ok_bind]
      exact ih (index + 1)

theorem ofNat_add_period
    (n : Nat) :
    UInt16.ofNat (n + 2 ^ 16) = UInt16.ofNat n :=
  ofNat_nonce_eq_iff.2 (Nat.add_mod_right n (2 ^ 16))

end Scheme

------------------------------------------------------------
-- Attempts and Runs
------------------------------------------------------------

namespace Recorded

open Scheme

variable {b : Backend}
variable {k : Preparation p}

theorem openings_attempt
    (hSeed : 32 ≤ k.maskSeed.length)
    (n : Nat) :
    (attempt b k (UInt16.ofNat n)).openings =
      (List.range' (n * p.columns) p.columns).map
        (maskOpening b k.maskSeed) := by
  have hReturns :
      ∀ i : Fin p.columns,
        Returns
          (Sampling.seededMask p b.secretStream k.maskSeed
            (Sampling.maskNonce p (UInt16.ofNat n) i.val))
          fun _ => True :=
    fun i =>
      (Sampling.seededMask_returns p b.secretStream _ hSeed).mono
        fun _ _ => trivial
  unfold attempt
  rw [openings_bind_silent, masks, openings_tabulate hReturns]
  apply List.ext_getElem
  · simp
  · intro i hi hi'
    simp [maskOpening, Sampling.maskNonce_ofNat, Nat.mul_comm]

/-
  The calls of a search from an index on: each of them opens
  the mask streams that come next, and only the last one is not
  rejected.
-/
structure Calls
    (b : Backend)
    (k : Preparation p)
    (remaining index : Nat)
    (x : Recorded SchemeError (Nat × SignatureParts p))
    (calls : Nat) : Prop where
  openings :
    x.openings =
      (List.range' (index * p.columns) (calls * p.columns)).map
        (maskOpening b k.maskSeed)
  begun : 0 < remaining → 0 < calls
  rejected :
    ∀ n, index ≤ n → n + 1 < index + calls →
      Scheme.attempt b k (UInt16.ofNat n) = .ok none
  last :
    ∀ n, index ≤ n → n + 1 = index + calls →
      calls < remaining →
        Scheme.attempt b k (UInt16.ofNat n) ≠ .ok none
  counted : ∀ r, x.outcome = .ok r → r.1 = index + calls

/- An attempt that is not rejected is the only call. -/
theorem calls_of_decided
    (hSeed : 32 ≤ k.maskSeed.length)
    {remaining index : Nat}
    {x : Recorded SchemeError (Nat × SignatureParts p)}
    (hOpenings :
      x.openings = (attempt b k (UInt16.ofNat index)).openings)
    (hDecided :
      Scheme.attempt b k (UInt16.ofNat index) ≠ .ok none)
    (hCounted : ∀ r, x.outcome = .ok r → r.1 = index + 1) :
    Calls b k (remaining + 1) index x 1 where
  openings := by
    rw [hOpenings, openings_attempt hSeed, Nat.one_mul]
  begun := fun _ => Nat.one_pos
  rejected := by
    intro n hLower hUpper
    omega
  last := by
    intro n hLower hLast _
    have hSame : n = index := by omega
    rw [hSame]
    exact hDecided
  counted := hCounted

/- A rejected attempt comes before the calls that follow it. -/
theorem Calls.after_rejected
    (hSeed : 32 ≤ k.maskSeed.length)
    {remaining index calls : Nat}
    {x y : Recorded SchemeError (Nat × SignatureParts p)}
    (hCalls : Calls b k remaining (index + 1) y calls)
    (hOpenings :
      x.openings =
        (attempt b k (UInt16.ofNat index)).openings ++ y.openings)
    (hOutcome : x.outcome = y.outcome)
    (hRejected :
      Scheme.attempt b k (UInt16.ofNat index) = .ok none) :
    Calls b k (remaining + 1) index x (calls + 1) where
  openings := by
    rw [hOpenings, openings_attempt hSeed, hCalls.openings,
      ← List.map_append, Nat.succ_mul, List.range'_append_1,
      Nat.succ_mul, Nat.add_comm p.columns]
  begun := fun _ => Nat.succ_pos calls
  rejected := by
    intro n hLower hUpper
    rcases Nat.eq_or_lt_of_le hLower with rfl | hLater
    · exact hRejected
    · exact hCalls.rejected n hLater (by omega)
  last := by
    intro n hLower hLast hFew
    have hBegun := hCalls.begun (by omega)
    exact hCalls.last n (by omega) (by omega) (by omega)
  counted := by
    intro r hOk
    rw [hCalls.counted r (hOutcome ▸ hOk)]
    omega

/- A search makes calls until one of them is not rejected. -/
theorem search_calls
    (hSeed : 32 ≤ k.maskSeed.length)
    (remaining index : Nat) :
    ∃ calls,
      Calls b k remaining index
        (search b k remaining (UInt16.ofNat index) index)
        calls := by
  -- A call that is not rejected is the last one.  A rejected
  -- one comes before the calls from the next index on.
  induction remaining generalizing index with
  | zero =>
      refine ⟨0, ?_⟩
      constructor
      · simp [search, silent]
      · simp
      · omega
      · omega
      · exact nofun
  | succ remaining ih =>
      have hOutcome := outcome_attempt b k (UInt16.ofNat index)
      cases hAttempt : Scheme.attempt b k (UInt16.ofNat index) with
      | error stop =>
          rw [hAttempt] at hOutcome
          refine ⟨1, calls_of_decided hSeed ?_ ?_ ?_⟩
          · rw [search, bind_of_error _ hOutcome]
          · rw [hAttempt]
            exact nofun
          · rw [search, bind_of_error _ hOutcome]
            exact nofun
      | ok made =>
          rw [hAttempt] at hOutcome
          cases made with
          | some candidate =>
              refine ⟨1, calls_of_decided hSeed ?_ ?_ ?_⟩
              · rw [search, bind_of_ok _ hOutcome]
                exact List.append_nil _
              · rw [hAttempt]
                exact nofun
              · rw [search, bind_of_ok _ hOutcome]
                intro r hOk
                cases hOk
                rfl
          | none =>
              rcases ih (index + 1) with ⟨calls, hCalls⟩
              rw [UInt16.ofNat_add] at hCalls
              refine ⟨calls + 1,
                hCalls.after_rejected hSeed ?_ ?_ hAttempt⟩
              · rw [search, bind_of_ok _ hOutcome]
                rfl
              · rw [search, bind_of_ok _ hOutcome]
                rfl

/- Signing opens the streams of its search. -/
theorem openings_sign
    {secretKey message context : Bytes}
    {randomizer : Seed}
    (hStart :
      prepare p b secretKey message context randomizer = .ok k) :
    (sign p b secretKey message context randomizer).openings =
      (search b k maxAttempts 0 0).openings := by
  have hSilent :
      (silent (prepare p b secretKey message context
          randomizer)).outcome = .ok k :=
    hStart
  unfold sign accept
  rw [openings_bind_silent, bind_of_ok _ hSilent]
  exact
    openings_bind_silent (search b k maxAttempts 0 0) fun r =>
      (.ok ⟨r.1, r.2⟩ : Outcome SchemeError (Accepted p))

/- Signing that does not begin opens no mask stream. -/
theorem openings_sign_of_error
    {secretKey message context : Bytes}
    {randomizer : Seed}
    {stop : Stop SchemeError}
    (hStop :
      prepare p b secretKey message context randomizer =
        .error stop) :
    (sign p b secretKey message context randomizer).openings =
      [] := by
  have hSilent :
      (silent (prepare p b secretKey message context
          randomizer)).outcome = .error stop :=
    hStop
  unfold sign accept
  rw [openings_bind_silent, bind_of_error _ hSilent]
  rfl

/-
  The calls of a run: their mask streams come in order, they
  are distinct until their nonces wrap around, and all calls
  but the last one are rejected.
-/
structure MaskRun
    (b : Backend)
    (k : Preparation p)
    (run : Recorded SchemeError Bytes)
    (calls : Nat) : Prop where
  begun : 0 < calls
  size : run.openings.length = calls * p.columns
  nonces :
    ∀ n ≤ calls,
      run.openings.take (n * p.columns) =
        maskOpenings b k.maskSeed (n * p.columns)
  nonces_distinct :
    ∀ n ≤ calls,
      (run.openings.take (n * p.columns)).Nodup
        ↔ n * p.columns ≤ 2 ^ 16
  streams_distinct :
    ∀ n ≤ calls, n * p.columns ≤ 2 ^ 16 →
      ((run.openings.take (n * p.columns)).map
        Opening.stream).Nodup
  rejected :
    ∀ n, n + 1 < calls →
      Scheme.attempt b k (UInt16.ofNat n) = .ok none
  last :
    ∀ n, n + 1 = calls → calls < maxAttempts →
      Scheme.attempt b k (UInt16.ofNat n) ≠ .ok none

theorem Calls.maskRun
    {run : Recorded SchemeError Bytes}
    {x : Recorded SchemeError (Nat × SignatureParts p)}
    {calls : Nat}
    (h : Calls b k maxAttempts 0 x calls)
    (hLength : k.maskSeed.length = digestBytes)
    (hOpenings : run.openings = x.openings) :
    MaskRun b k run calls := by
  have hAll :
      run.openings =
        maskOpenings b k.maskSeed (calls * p.columns) := by
    rw [hOpenings, h.openings, Nat.zero_mul, maskOpenings,
      List.range_eq_range']
  have hNonces :
      ∀ n ≤ calls,
        run.openings.take (n * p.columns) =
          maskOpenings b k.maskSeed (n * p.columns) := by
    intro n hn
    have hLe : n * p.columns ≤ calls * p.columns :=
      Nat.mul_le_mul_right p.columns hn
    rw [hAll, maskOpenings, ← List.map_take, List.take_range,
      Nat.min_eq_left hLe]
    rfl
  refine
    { begun := h.begun (by decide)
      size := ?_
      nonces := hNonces
      nonces_distinct := ?_
      streams_distinct := ?_
      rejected := ?_
      last := ?_ }
  · simp [hAll, maskOpenings]
  · intro n hn
    rw [hNonces n hn, nodup_maskOpenings_iff]
  · intro n hn hFew
    rw [hNonces n hn]
    apply nodup_maskStreams _ _ hFew
    · rw [hLength]
      decide
    · rw [hLength]
      decide
  · intro n hn
    exact h.rejected n (Nat.zero_le n) (by omega)
  · intro n hn hFew
    exact h.last n (Nat.zero_le n) (by omega) hFew

end Recorded

------------------------------------------------------------
-- Runs of Signing
------------------------------------------------------------

namespace Scheme

/- The challenge seed of the attempt numbered `kappa`. -/
def attemptSeed
    (b : Backend)
    (k : Preparation p)
    (kappa : UInt16) : Outcome SchemeError Bytes := do
  let commitment ← commit b k kappa
  challengeSeed p k.digest commitment.parts.high

/- A search among attempts that were all rejected is endless. -/
theorem search_eq_overflow
    {b : Backend}
    {k : Preparation p}
    (hRejected :
      ∀ n < 2 ^ 16, attempt b k (UInt16.ofNat n) = .ok none)
    (remaining : Nat) :
    search (fun n => attempt b k (UInt16.ofNat n)) remaining 0 =
      .error .overflow := by
  apply search_periodic _ hRejected (by decide)
  intro n
  dsimp only
  rw [ofNat_add_period]

section Prepared

variable {b : Backend}
variable {k : Preparation p}
variable {secretKey message context : Bytes}
variable {randomizer : Seed}

/- What is accepted is what the search finds. -/
theorem accept_of_prepared
    (hStart :
      prepare p b secretKey message context randomizer = .ok k) :
    accept p b secretKey message context randomizer =
      search (fun n => attempt b k (UInt16.ofNat n))
          maxAttempts 0 >>=
        fun r => .ok ⟨r.1, r.2⟩ := by
  rw [accept, hStart, ok_bind]
  rfl

theorem length_maskSeed
    (hStart :
      prepare p b secretKey message context randomizer = .ok k) :
    k.maskSeed.length = digestBytes := by
  rcases (prepare_ends p b secretKey message context
      randomizer).of_eq_ok hStart with
    ⟨key, _, _, _, _, hMaskSeed, _⟩
  rw [hMaskSeed, maskSeed, Keccak.length_shake256]

/- A run whose first `2^16` attempts are rejected is endless. -/
theorem sign_eq_overflow
    (hStart :
      prepare p b secretKey message context randomizer = .ok k)
    (hRejected :
      ∀ n < 2 ^ 16, attempt b k (UInt16.ofNat n) = .ok none) :
    (sign p b secretKey message context randomizer).outcome =
      .error .overflow := by
  rw [sign_outcome, accept_of_prepared hStart,
    search_eq_overflow hRejected]
  rfl

/- The number of calls is reported with a signature. -/
theorem events_of_signed
    {calls : Nat}
    {s : Bytes}
    (hStart :
      prepare p b secretKey message context randomizer = .ok k)
    (hCalls :
      Recorded.Calls b k maxAttempts 0
        (Recorded.search b k maxAttempts 0 0) calls)
    (hSigned :
      (sign p b secretKey message context randomizer).outcome =
        .ok s) :
    (sign p b secretKey message context randomizer).events =
      [.signing p b, .signed p calls] := by
  have hAccept := accept_of_prepared hStart
  rw [sign_outcome, bind_eq_ok_iff, hAccept] at hSigned
  rcases hSigned with ⟨accepted, hAccepted, _⟩
  rcases (bind_eq_ok_iff _ _ _).1 hAccepted with
    ⟨r, hSearch, hParts⟩
  have hCount : r.1 = 0 + calls :=
    hCalls.counted r
      ((Recorded.outcome_search b k maxAttempts 0).trans hSearch)
  cases hParts
  rw [sign, hAccept, hAccepted, hCount, Nat.zero_add]

end Prepared

/-
  The attempts of a run of signing open mask streams with the
  nonces that come next modulo `2^16`, so no mask stream is
  opened twice until the nonces wrap around.  An attempt whose
  number is greater by `2^16` is the same attempt again, so a
  run that rejects that many attempts never has a signature.
-/
theorem nonce_discipline
    (p : ParameterSet)
    (b : Backend)
    (secretKey message context : Bytes)
    (randomizer : Seed) :
    let start := prepare p b secretKey message context randomizer
    let report := sign p b secretKey message context randomizer
    let run :=
      Recorded.sign p b secretKey message context randomizer
    run.outcome = report.outcome
      ∧ (∀ stop, start = .error stop → run.openings = [])
      ∧ ∀ k, start = .ok k →
        (∃ calls,
          Recorded.MaskRun b k run calls
            ∧ ∀ s, run.outcome = .ok s →
              calls ≤ 2 ^ 16
                ∧ report.events =
                  [.signing p b, .signed p calls])
          ∧ (∀ n,
            let kappa := UInt16.ofNat n
            let later := UInt16.ofNat (n + 2 ^ 16)
            Sampling.masks p b.secretStream k.maskSeed later =
                Sampling.masks p b.secretStream k.maskSeed kappa
              ∧ commit b k later = commit b k kappa
              ∧ attemptSeed b k later = attemptSeed b k kappa
              ∧ attempt b k later = attempt b k kappa)
          ∧ ((∀ n < 2 ^ 16,
              attempt b k (UInt16.ofNat n) = .ok none) →
            (∀ remaining,
              search (fun n => attempt b k (UInt16.ofNat n))
                  remaining 0 =
                .error .overflow)
              ∧ run.outcome = .error .overflow) := by
  intro start report run
  have hOutcome : run.outcome = report.outcome :=
    Recorded.outcome_sign p b secretKey message context
      randomizer
  refine ⟨hOutcome,
    fun stop hStop => Recorded.openings_sign_of_error hStop, ?_⟩
  intro k hStart
  have hSeed := length_maskSeed hStart
  rcases Recorded.search_calls (b := b)
      (hSeed.symm ▸ (by decide : 32 ≤ digestBytes))
      maxAttempts 0 with
    ⟨calls, hCalls⟩
  refine ⟨⟨calls,
    hCalls.maskRun hSeed (Recorded.openings_sign hStart), ?_⟩,
    ?_, ?_⟩
  · intro s hSigned
    rw [hOutcome] at hSigned
    refine ⟨?_, events_of_signed hStart hCalls hSigned⟩
    by_contra hMany
    have hStop :=
      sign_eq_overflow hStart fun n hn =>
        hCalls.rejected n (Nat.zero_le n) (by omega)
    rw [hSigned] at hStop
    cases hStop
  · intro n
    dsimp only
    rw [ofNat_add_period]
    exact ⟨rfl, rfl, rfl, rfl⟩
  · intro hRejected
    refine ⟨search_eq_overflow hRejected, ?_⟩
    rw [hOutcome]
    exact sign_eq_overflow hStart hRejected

end Scheme

end LatticeSignature
