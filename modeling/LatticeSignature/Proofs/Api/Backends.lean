import LatticeSignature.Api.KeyPair
import LatticeSignature.Api.Signing
import LatticeSignature.Proofs.Scheme.DerivedKey
import LatticeSignature.Proofs.Scheme.SigningErrors

/-
  A secret key does not tell the backend that it was generated
  for.  Signing decodes it and expands its matrix with the
  backend of the call, so keys of other backends are signed
  with like keys of the same one.  Only the derivation of the
  public key compares a digest.

  Main declarations:
    * `Scheme.refusal?_eq_none_of_unpacked`
    * `Scheme.sign_refusal_congr`
    * `Scheme.Generated.digest_eq_of_derived`
    * `SecretKey.sign_ends`
    * `KeyPair.ofSeed_yields`
    * `SecretKey.sign_ignores_backend_of_key`
-/

------------------------------------------------------------
-- Refusals
------------------------------------------------------------

namespace LatticeSignature

open Outcome Encoding

namespace Scheme

variable {p : ParameterSet}
variable {b : Backend}
variable {secretKey context : Bytes}

/- A secret key that is decoded is not refused. -/
theorem refusal?_eq_none_of_unpacked
    {key : SecretParts p}
    (hKey : unpackSecretKey p secretKey = .ok key)
    (hFits : context.length ≤ 255) :
    refusal? p secretKey context = none := by
  have hSize : secretKey.length = p.secretKeyBytes := by
    by_contra hSize
    rw [unpackSecretKey_eq_fail hSize] at hKey
    cases hKey
  have hAccepted := (exists_unpackSecretKey_iff hSize).1 ⟨key, hKey⟩
  exact refusal?_eq_none_iff.2 ⟨hSize, hAccepted, hFits⟩

/- All backends refuse to sign for the same causes. -/
theorem sign_refusal_congr
    (p : ParameterSet)
    (b b' : Backend)
    (secretKey message context : Bytes)
    (randomizer : Seed)
    (cause : SchemeError) :
    (sign p b secretKey message context randomizer).outcome =
        fail cause
      ↔ (sign p b' secretKey message context
          randomizer).outcome =
        fail cause := by
  rw [sign_eq_fail_iff, sign_eq_fail_iff]

/-
  A public key that any backend derives from a generated secret
  key has the digest of the generated public key.
-/
theorem Generated.digest_eq_of_derived
    {keys : KeyPairBytes}
    {key : SecretParts p}
    {t high : PolyVec p.rows}
    {b' : Backend}
    {publicKey : Bytes}
    (h : Generated b keys key t high)
    (hDerived :
      publicKeyOfSecret p b' keys.secretKey = .ok publicKey) :
    keyDigest publicKey = keyDigest keys.publicKey := by
  rcases publicKeyOfSecret_eq_ok_iff.1 hDerived with
    ⟨key', _, _, _, hKey', _, hDigest⟩
  have hSame := Except.ok.inj (hKey'.symm.trans h.secretKey)
  rw [hSame] at hDigest
  rw [h.tr]
  exact (keyDigest_eq_iff publicKey key.tr).2 hDigest

end Scheme

------------------------------------------------------------
-- Keys of Callers
------------------------------------------------------------

open Scheme

/- Signing with a key that is decoded. -/
theorem SecretKey.sign_ends
    {p : ParameterSet}
    {parts : SecretParts p}
    {context : Bytes}
    (key : SecretKey)
    (b : Backend)
    (message : Bytes)
    (hKey : unpackSecretKey p key.bytes = .ok parts)
    (hFits : context.length ≤ 255) :
    let start :=
      prepare p b key.bytes message context
        (Vector.replicate 32 0)
    Ends
      (fun stop =>
        ∃ inner,
          RunStops b start inner
            ∧ mapStop ApiError.ofScheme inner = stop)
      (key.sign p b message context).outcome
      fun signature =>
        signature.bytes.length = p.signatureBytes
          ∧ FirstSignature b start signature.bytes := by
  have hRuns :=
    sign_first_signature b message (Vector.replicate 32 0)
      (refusal?_eq_none_of_unpacked hKey hFits)
  exact (hRuns.mapError ApiError.ofScheme).map fun _ h => h

/- The keys of a seed are generated keys. -/
theorem KeyPair.ofSeed_yields
    (p : ParameterSet)
    (b : Backend)
    (seed : Seed) :
    Yields (KeyPair.ofSeed p b seed).outcome fun pair =>
      ∃ (keys : KeyPairBytes) (key : SecretParts p)
        (t high : PolyVec p.rows),
        KeyPair.ofPacked keys = pair
          ∧ Generated b keys key t high := by
  have hScheme :=
    (keyPairOfSeed_yields p b seed).mapError ApiError.ofScheme
  refine (hScheme.weaken ?_).map ?_
  · intro stop hStop
    rcases hStop with ⟨_, rfl, rfl⟩
    rfl
  · intro keys hKeys
    rcases hKeys with ⟨key, t, high, hGenerated⟩
    exact ⟨keys, key, t, high, rfl, hGenerated⟩

/-
  Every backend signs with the keys that are generated for any
  of them.  No context that fits is refused, and attempts are
  made with the matrix of the signing backend until one leads
  to a signature.  Which byte strings are refused as secret
  keys does not depend on the backend at all, while a public
  key is derived by another backend only if its digest is that
  of the generated one.
-/
theorem SecretKey.sign_ignores_backend_of_key
    (p : ParameterSet)
    (b b' : Backend) :
    (∀ seed : Seed,
      Yields (KeyPair.ofSeed p b seed).outcome fun pair =>
        (∀ message context : Bytes, context.length ≤ 255 →
          let start :=
            prepare p b' pair.secretKey.bytes message context
              (Vector.replicate 32 0)
          let outcome :=
            (pair.secretKey.sign p b' message context).outcome
          (∀ cause, outcome ≠ fail cause)
            ∧ Ends
              (fun stop =>
                ∃ inner,
                  RunStops b' start inner
                    ∧ mapStop ApiError.ofScheme inner = stop)
              outcome
              (fun signature =>
                signature.bytes.length = p.signatureBytes
                  ∧ FirstSignature b' start signature.bytes))
          ∧ ∀ publicKey : PublicKey,
            pair.secretKey.publicKey p b' = .ok publicKey →
              keyDigest publicKey.bytes =
                keyDigest pair.publicKey.bytes)
      ∧ ∀ (secretKey message context : Bytes)
          (randomizer : Seed)
          (cause : SchemeError),
        (Scheme.sign p b secretKey message context
            randomizer).outcome =
            fail cause
          ↔ (Scheme.sign p b' secretKey message context
              randomizer).outcome =
            fail cause := by
  refine ⟨?_, sign_refusal_congr p b b'⟩
  intro seed
  refine (KeyPair.ofSeed_yields p b seed).mono ?_
  intro pair hPair
  rcases hPair with ⟨keys, key, t, high, rfl, hGenerated⟩
  constructor
  · intro message context hFits start outcome
    have hEnds :=
      SecretKey.sign_ends ⟨keys.secretKey⟩ b' message
        hGenerated.secretKey hFits
    refine ⟨?_, hEnds⟩
    intro cause
    apply Ends.ne_error hEnds
    intro hStop
    rcases hStop with ⟨inner, hStops, hSame⟩
    cases inner with
    | error cause => exact hStops.ne_error rfl
    | overflow => cases hSame
    | exhausted => cases hSame
  · intro publicKey hPublic
    rcases (map_eq_ok_iff _ _ _).1 hPublic with
      ⟨bytes, hLift, rfl⟩
    exact
      hGenerated.digest_eq_of_derived
        ((mapError_eq_ok_iff _ _ _).1 hLift)

end LatticeSignature
