import LatticeSignature.Proofs.Encoding.Keys
import LatticeSignature.Proofs.Encoding.Signature
import LatticeSignature.Proofs.Rounding.Vectors
import LatticeSignature.Proofs.Scheme.Message
import LatticeSignature.Proofs.Scheme.Products
import LatticeSignature.Scheme.Verification

/-
  Verification accepts exactly the signatures that the
  equations of the scheme describe, and refuses all others
  with one cause.

  Main declarations:
    * `Scheme.approximation`
    * `Scheme.difference_ends`
    * `Scheme.restoredCommitment`
    * `Scheme.IsSignature`
    * `Scheme.Accepts`
    * `Scheme.check_ends`
    * `Scheme.verify_eq_ok`, `Scheme.accepts_of_verify`
    * `Scheme.verify_refines`
-/

------------------------------------------------------------
-- Shifted Parts
------------------------------------------------------------

namespace LatticeSignature

open Outcome Negacyclic

/- High parts are shifted without loss. -/
theorem PolyVec.shiftLeft_returns
    {ε : Type}
    {n : Nat}
    {v : PolyVec n}
    (h :
      ∀ i : Fin n, Packing.FitsWidth highPartBits v[i]) :
    Returns
      (v.shiftLeft Rounding.droppedBits : Outcome ε (PolyVec n))
      fun w =>
        w.Within (Field.q - 1)
          ∧ w.elements = fun i => (2 ^ 13 : Residue) • v.elements i := by
  have hEntry :
      ∀ (i : Fin n) (k : Fin degree),
        Returns
          (Word.shiftLeft v[i][k] Rounding.droppedBits
            : Outcome ε Int)
          fun x =>
            Word.Within (Field.q - 1) x
              ∧ (x : Residue) = 2 ^ 13 * v[i][k] := by
    intro i k
    have hWithin := Encoding.within_shifted (h i) k
    refine ⟨v[i][k] * 2 ^ Rounding.droppedBits, ?_, hWithin, ?_⟩
    · have hFits := (hWithin.mono (by decide)).fits32
      rw [Word.shiftLeft, if_pos (by decide),
        Word.wrap32_of_fits _ hFits]
    · rw [mul_comm]
      push_cast
      rfl
  have hRow :
      ∀ i : Fin n,
        Returns
          (Poly.shiftLeft v[i] Rounding.droppedBits
            : Outcome ε Poly)
          fun r =>
            ∀ k : Fin degree,
              Word.Within (Field.q - 1) r[k]
                ∧ (r[k] : Residue) = 2 ^ 13 * v[i][k] :=
    fun i =>
      returns_mapEntries
        (f := (Word.shiftLeft · Rounding.droppedBits)) (hEntry i)
  have hEntries :=
    returns_mapEntries
      (f := (Poly.shiftLeft · Rounding.droppedBits)) (v := v) hRow
  refine hEntries.mono ?_
  intro w hw
  refine ⟨fun i k => (hw i k).1, ?_⟩
  funext i k
  exact (hw i k).2

namespace Scheme

------------------------------------------------------------
-- Commitment of a Signature
------------------------------------------------------------

/- The ring elements `A * z - c * t1 * 2^13`. -/
def approximation
    {p : ParameterSet}
    (key : PublicParts p)
    (signature : SignatureParts p)
    (a : Matrix p.rows p.columns)
    (c : Poly) : Fin p.rows → Element Residue :=
  Negacyclic.apply a.elements signature.z.elements
    - fun i =>
      product c.element ((2 ^ 13 : Residue) • key.t1.elements i)

/- A sampler that verification needs is exhausted. -/
def VerifierSpent
    {p : ParameterSet}
    (b : Backend)
    (key : PublicParts p)
    (signature : SignatureParts p)
    (stop : Stop SchemeError) : Prop :=
  stop = .exhausted
    ∧ (Sampling.challenge p signature.challenge =
        (.error .exhausted : Outcome SchemeError Poly)
      ∨ Sampling.matrix p b key.rho = .error .exhausted)

/-
  The difference is subtracted between transforms and lifted
  to least representatives.
-/
theorem difference_ends
    {p : ParameterSet}
    (b : Backend)
    {key : PublicParts p}
    {signature : SignatureParts p}
    (hKey : key.InRange)
    (hz : signature.z.Within (Field.q - 1)) :
    Ends (VerifierSpent b key signature)
      (difference b key signature)
      fun w =>
        ∃ c a,
          Sampling.challenge p signature.challenge =
              (.ok c : Outcome SchemeError Poly)
            ∧ Sampling.matrix p b key.rho = .ok a
            ∧ w.Canonical
            ∧ w.elements = approximation key signature a c := by
  have hChallenge :
      Ends (VerifierSpent b key signature)
        (transformedChallenge p signature.challenge) _ :=
    (transformedChallenge_ends p signature.challenge).weaken
      fun _ hSpent => ⟨hSpent.1, Or.inl hSpent.2⟩
  have hMatrix :
      Ends (VerifierSpent b key signature)
        (Sampling.matrix p b key.rho)
        fun a =>
          Sampling.matrix p b key.rho = .ok a ∧ a.Canonical := by
    refine (Sampling.matrix_yields p b
      key.rho).with_eq.with_stop.weaken ?_
    rintro stop ⟨hStop, rfl⟩
    exact ⟨rfl, Or.inr hStop⟩
  refine hChallenge.bind ?_
  rintro hat ⟨c, hc, _, hHat⟩
  refine hMatrix.bind ?_
  rintro a ⟨ha, hCanonical⟩
  apply Returns.ends
  refine (PolyVec.transform_returns hz).bind ?_
  intro z hTransformed
  refine
    (Matrix.apply_returns hCanonical hTransformed
      p.columns_le).bind ?_
  intro az hProduct
  refine (PolyVec.shiftLeft_returns hKey).bind ?_
  rintro shifted ⟨hShifted, hElements⟩
  refine (PolyVec.transform_returns hShifted).bind ?_
  intro t1 ht1
  refine (PolyVec.scale_returns ht1 hHat).bind ?_
  intro ct1 hScaled
  refine (PolyVec.sub_returns_isProduct hProduct hScaled
    (by decide)).bind ?_
  intro difference hDifference
  refine (PolyVec.reduce_returns_isProduct hDifference
    (by decide)).bind ?_
  intro reduced hReduced
  refine (PolyVec.inverseTransform_of_isProduct
    hReduced).bind ?_
  rintro w ⟨hRange, hw⟩
  refine returns_ok ⟨c, a, hc, ha, ?_, ?_⟩
  · exact PolyVec.canonical_liftNegative (hRange.mono (by decide))
  · rw [PolyVec.elements_liftNegative, hw, hElements]
    rfl

/- The buckets of the difference, corrected by the hints. -/
def restoredCommitment
    {p : ParameterSet}
    (key : PublicParts p)
    (signature : SignatureParts p)
    (a : Matrix p.rows p.columns)
    (c : Poly) : PolyVec p.rows :=
  Vector.ofFn fun i => Vector.ofFn fun k =>
    p.buckets.useHint signature.hints[i][k]
      (approximation key signature a c i k)

theorem restoreCommitment_ends
    {p : ParameterSet}
    (b : Backend)
    {key : PublicParts p}
    {signature : SignatureParts p}
    (hKey : key.InRange)
    (hz : signature.z.Within (Field.q - 1)) :
    Ends (VerifierSpent b key signature)
      (restoreCommitment b key signature)
      fun w =>
        ∃ c a,
          Sampling.challenge p signature.challenge =
              (.ok c : Outcome SchemeError Poly)
            ∧ Sampling.matrix p b key.rho = .ok a
            ∧ w = restoredCommitment key signature a c := by
  refine (difference_ends b hKey hz).bind ?_
  rintro w ⟨c, a, hc, ha, hCanonical, hElements⟩
  refine (Hints.apply_returns p.buckets signature.hints
    hCanonical).ends.mono ?_
  intro restored hRestored
  refine ⟨c, a, hc, ha, Entries.ext_rows fun i k => ?_⟩
  rw [hRestored i k, hElements]
  simp [restoredCommitment]

------------------------------------------------------------
-- Valid Signatures
------------------------------------------------------------

/- The digest of a message in a context, under a public key. -/
def messageHash
    (publicKey context message : Bytes) : Bytes :=
  Keccak.shake256
    (frame (Keccak.shake256 publicKey 64) context message) 64

/-
  The parts of a signature satisfy the equations of the
  scheme: the responses are short, and the challenge seed is
  the one of the commitment that is restored.
-/
structure IsSignature
    {p : ParameterSet}
    (b : Backend)
    (publicKey message context : Bytes)
    (key : PublicParts p)
    (parts : SignatureParts p)
    (a : Matrix p.rows p.columns)
    (c : Poly) : Prop where
  norm :
    ∀ (i : Fin p.columns) (k : Fin degree),
      |parts.z[i][k]| < p.gamma1 - p.beta
  matrix : Sampling.matrix p b key.rho = .ok a
  challenge :
    Sampling.challenge p parts.challenge =
      (.ok c : Outcome SchemeError Poly)
  seed :
    parts.challenge =
      Keccak.shake256
        (messageHash publicKey context message
          ++ Encoding.encodeCommitment p
            (restoredCommitment key parts a c))
        p.challengeBytes

/-
  The byte strings are the packed forms of a public key and of
  a valid signature.
-/
def Accepts
    (p : ParameterSet)
    (b : Backend)
    (publicKey message context signature : Bytes) : Prop :=
  publicKey.length = p.publicKeyBytes
    ∧ signature.length = p.signatureBytes
    ∧ context.length ≤ 255
    ∧ ∃ (key : PublicParts p) (parts : SignatureParts p)
        (a : Matrix p.rows p.columns) (c : Poly),
      key.InRange
        ∧ Encoding.packPublicKey p key = .ok publicKey
        ∧ parts.InRange
        ∧ Encoding.packSignature p parts = .ok signature
        ∧ IsSignature b publicKey message context key parts a c

/- The packed parts are those that are unpacked. -/
theorem accepts_iff
    {p : ParameterSet}
    {b : Backend}
    {publicKey message context signature : Bytes}
    {key : PublicParts p}
    {parts : SignatureParts p}
    (hKey : Encoding.unpackPublicKey p publicKey = .ok key)
    (hParts :
      Encoding.unpackSignature p signature = .ok parts) :
    Accepts p b publicKey message context signature
      ↔ context.length ≤ 255
        ∧ ∃ a c,
          IsSignature b publicKey message context key parts
            a c := by
  constructor
  · rintro ⟨_, _, hContext, key', parts', a, c, hKeyRange,
      hKeyBytes, hPartsRange, hPartsBytes, hSignature⟩
    have hKey' :=
      Encoding.unpackPublicKey_eq_ok_iff.2
        ⟨hKeyRange, hKeyBytes⟩
    have hParts' :=
      Encoding.unpackSignature_eq_ok_iff.2
        ⟨hPartsRange, hPartsBytes⟩
    rw [hKey] at hKey'
    rw [hParts] at hParts'
    cases hKey'
    cases hParts'
    exact ⟨hContext, a, c, hSignature⟩
  · rintro ⟨hContext, a, c, hSignature⟩
    rcases Encoding.unpackPublicKey_eq_ok_iff.1 hKey with
      ⟨hKeyRange, hKeyBytes⟩
    rcases Encoding.unpackSignature_eq_ok_iff.1 hParts with
      ⟨hPartsRange, hPartsBytes⟩
    have hKeyLength :=
      ((Encoding.packPublicKey_returns
        hKeyRange).of_eq_ok hKeyBytes).1
    have hPartsLength :=
      ((Encoding.packSignature_returns
        hPartsRange).of_eq_ok hPartsBytes).1
    exact
      ⟨hKeyLength, hPartsLength, hContext, key, parts, a, c,
        hKeyRange, hKeyBytes, hPartsRange, hPartsBytes,
        hSignature⟩

/- The key and the signature of a valid pair can be unpacked. -/
theorem Accepts.unpacked
    {p : ParameterSet}
    {b : Backend}
    {publicKey message context signature : Bytes}
    (h : Accepts p b publicKey message context signature) :
    (∃ key, Encoding.unpackPublicKey p publicKey = .ok key)
      ∧ ∃ parts,
        Encoding.unpackSignature p signature = .ok parts := by
  rcases h with
    ⟨_, _, _, key, parts, _, _, hKeyRange, hKeyBytes, hPartsRange,
     hPartsBytes, _⟩
  exact
    ⟨⟨key,
        Encoding.unpackPublicKey_eq_ok_iff.2
          ⟨hKeyRange, hKeyBytes⟩⟩,
      ⟨parts,
        Encoding.unpackSignature_eq_ok_iff.2
          ⟨hPartsRange, hPartsBytes⟩⟩⟩

------------------------------------------------------------
-- Checks
------------------------------------------------------------

/-
  A sampler that verification needs is exhausted, for the
  parts of the byte strings.
-/
def SamplerSpent
    (p : ParameterSet)
    (b : Backend)
    (publicKey signature : Bytes) : Prop :=
  ∃ (key : PublicParts p) (parts : SignatureParts p),
    Encoding.unpackPublicKey p publicKey = .ok key
      ∧ Encoding.unpackSignature p signature = .ok parts
      ∧ (Sampling.challenge p parts.challenge =
          (.error .exhausted : Outcome SchemeError Poly)
        ∨ Sampling.matrix p b key.rho = .error .exhausted)

/- A check stops only on byte strings that are not valid. -/
def CheckStops
    (p : ParameterSet)
    (b : Backend)
    (publicKey message context signature : Bytes)
    (stop : Stop SchemeError) : Prop :=
  ¬ Accepts p b publicKey message context signature
    ∧ ((∃ cause, stop = .error cause)
      ∨ stop = .exhausted ∧ SamplerSpent p b publicKey signature)

/- A check whose sampler is exhausted has nothing to accept. -/
theorem CheckStops.of_spent
    {p : ParameterSet}
    {b : Backend}
    {publicKey message context signature : Bytes}
    {key : PublicParts p}
    {parts : SignatureParts p}
    {stop : Stop SchemeError}
    (hKey : Encoding.unpackPublicKey p publicKey = .ok key)
    (hParts :
      Encoding.unpackSignature p signature = .ok parts)
    (h : VerifierSpent b key parts stop) :
    CheckStops p b publicKey message context signature stop := by
  rcases h with ⟨hStop, hSpent⟩
  refine ⟨?_, Or.inr ⟨hStop, key, parts, hKey, hParts, hSpent⟩⟩
  rw [accepts_iff hKey hParts]
  rintro ⟨_, a, c, hSignature⟩
  rw [hSignature.challenge, hSignature.matrix] at hSpent
  rcases hSpent with hSpent | hSpent <;> cases hSpent

/- The check of parts that were unpacked. -/
theorem check_unpacked_ends
    {p : ParameterSet}
    {b : Backend}
    {publicKey message context signature : Bytes}
    {key : PublicParts p}
    {parts : SignatureParts p}
    (hKey : Encoding.unpackPublicKey p publicKey = .ok key)
    (hParts :
      Encoding.unpackSignature p signature = .ok parts) :
    Ends (CheckStops p b publicKey message context signature)
      (check p b publicKey message context signature)
      fun accepted =>
        accepted = true
          ↔ Accepts p b publicKey message context signature := by
  have hAccepts :
      Accepts p b publicKey message context signature
        ↔ context.length ≤ 255
          ∧ ∃ a c,
            IsSignature b publicKey message context key parts
              a c :=
    accepts_iff hKey hParts
  have hKeyRange := (Encoding.unpackPublicKey_eq_ok_iff.1 hKey).1
  have hPartsRange :=
    (Encoding.unpackSignature_eq_ok_iff.1 hParts).1
  have hz := within_response hPartsRange.z
  have hWords : parts.z.Within 2147483647 :=
    hz.mono (by decide)
  have hNorm :=
    PolyVec.exceedsNorm_eq_false_iff hWords (responseBound_le p)
  rw [check, hKey, ok_bind, hParts, ok_bind]
  split
  · rename_i hExceeds
    refine Or.inl ⟨false, rfl, ?_⟩
    have hRefused :
        ¬ Accepts p b publicKey message context signature := by
      rw [hAccepts]
      rintro ⟨_, a, c, hSignature⟩
      rw [hNorm.2 hSignature.norm] at hExceeds
      cases hExceeds
    simp only [hRefused, Bool.false_eq_true]
  rename_i hExceeds
  rw [Bool.not_eq_true] at hExceeds
  by_cases hContext : context.length ≤ 255
  swap
  · refine Ends.bind_of_error
      (messageDigest_eq_fail _ message hContext)
      ⟨?_, Or.inl ⟨_, rfl⟩⟩
    rw [hAccepts]
    exact fun h => hContext h.1
  rw [messageDigest_eq_ok _ message hContext, ok_bind]
  refine ((restoreCommitment_ends b hKeyRange hz).weaken
    fun _ hSpent => .of_spent hKey hParts hSpent).bind ?_
  rintro w ⟨c, a, hc, ha, rfl⟩
  rw [challengeSeed_eq_ok]
  refine Or.inl ⟨_, rfl, ?_⟩
  dsimp only
  rw [beq_iff_eq, hAccepts]
  constructor
  · intro hSeed
    exact ⟨hContext, a, c, hNorm.1 hExceeds, ha, hc, hSeed⟩
  · rintro ⟨_, a', c', hSignature⟩
    have ha' := hSignature.matrix
    have hc' := hSignature.challenge
    rw [ha] at ha'
    rw [hc] at hc'
    cases ha'
    cases hc'
    exact hSignature.seed

/-
  A check stops without a valid signature only, and accepts
  every valid one.
-/
theorem check_ends
    (p : ParameterSet)
    (b : Backend)
    (publicKey message context signature : Bytes) :
    Ends (CheckStops p b publicKey message context signature)
      (check p b publicKey message context signature)
      fun accepted =>
        accepted = true
          ↔ Accepts p b publicKey message context signature := by
  rcases Encoding.unpackPublicKey_decides p publicKey with
    ⟨key, hKey, _⟩ | ⟨stop, hStop, hCause⟩
  swap
  · refine Ends.bind_of_error hStop ⟨?_, Or.inl hCause⟩
    intro hAccepts
    rcases hAccepts.unpacked with ⟨⟨key, hKey⟩, _⟩
    rw [hStop] at hKey
    cases hKey
  rcases Encoding.unpackSignature_decides p signature with
    ⟨parts, hParts, _⟩ | ⟨stop, hStop, hCause⟩
  · exact check_unpacked_ends hKey hParts
  · rw [check, hKey, ok_bind]
    refine Ends.bind_of_error hStop ⟨?_, Or.inl hCause⟩
    intro hAccepts
    rcases hAccepts.unpacked with ⟨_, parts, hParts⟩
    rw [hStop] at hParts
    cases hParts

/- Valid signatures are verified. -/
theorem verify_eq_ok
    {p : ParameterSet}
    {b : Backend}
    {publicKey message context signature : Bytes}
    (h : Accepts p b publicKey message context signature) :
    (verify p b publicKey message context signature).outcome =
      .ok () := by
  dsimp only [verify]
  rcases check_ends p b publicKey message context signature with
    ⟨accepted, hCheck, hAccepts⟩ | ⟨_, _, hRefused, _⟩
  · rw [hCheck, hAccepts.2 h]
  · exact absurd h hRefused

/- Nothing but valid signatures is verified. -/
theorem accepts_of_verify
    {p : ParameterSet}
    {b : Backend}
    {publicKey message context signature : Bytes}
    (h :
      (verify p b publicKey message context signature).outcome =
        .ok ()) :
    Accepts p b publicKey message context signature := by
  dsimp only [verify] at h
  rcases check_ends p b publicKey message context signature with
    ⟨accepted, hCheck, hAccepts⟩ | ⟨stop, hCheck, _, hStop⟩
  · rw [hCheck] at h
    cases accepted with
    | true => exact hAccepts.1 rfl
    | false => cases h
  · rw [hCheck] at h
    rcases hStop with ⟨cause, rfl⟩ | ⟨rfl, _⟩ <;> cases h

/-
  Verification returns exactly on the valid signatures.  It
  refuses the others with its own cause, whatever led to the
  refusal, unless a sampler is exhausted.
-/
theorem verify_refines
    (p : ParameterSet)
    (b : Backend)
    (publicKey message context signature : Bytes) :
    let outcome :=
      (verify p b publicKey message context signature).outcome
    (outcome = .ok ()
        ↔ Accepts p b publicKey message context signature)
      ∧ (outcome = .ok ()
        ∨ outcome = fail (.verification p.name)
        ∨ outcome = .error .exhausted
          ∧ SamplerSpent p b publicKey signature) := by
  dsimp only [verify]
  rcases check_ends p b publicKey message context signature with
    ⟨accepted, hCheck, hAccepts⟩
      | ⟨stop, hCheck, hRefused, hStop⟩
  · rw [hCheck]
    cases accepted with
    | true => exact ⟨by simpa using hAccepts, Or.inl rfl⟩
    | false =>
        exact
          ⟨by simpa [fail] using hAccepts, Or.inr (Or.inl rfl)⟩
  · rw [hCheck]
    rcases hStop with ⟨cause, rfl⟩ | ⟨rfl, hSpent⟩
    · exact
        ⟨by simpa [fail] using hRefused, Or.inr (Or.inl rfl)⟩
    · exact ⟨by simpa using hRefused,
        Or.inr (Or.inr ⟨rfl, hSpent⟩)⟩

end Scheme

end LatticeSignature
