import LatticeSignature.Api.KeyPair
import LatticeSignature.Api.Signing
import LatticeSignature.Proofs.Api.Decoders
import LatticeSignature.Proofs.Scheme.DerivedKey
import LatticeSignature.Proofs.Scheme.SigningErrors

/-
  The causes that callers see for malformed keys.  A key of a
  wrong size is refused for its length.  A secret key of the
  right size, of which a secret field is out of range, is
  refused by its decoder as an invalid signature; no key that
  was decoded is.

  Main declarations:
    * `PublicKey.deserialize_eq`
    * `SecretKey.fault?`, `SecretKey.lift_unpackSecretKey_ends`
    * `SecretKey.deserialize_eq`
    * `SecretKey.publicKey_ends`
    * `SecretKey.signWith_eq_fail_iff`
    * `SecretKey.fault?_of_ofBytes`
    * `SecretKey.decoder_blames_signature`
-/

------------------------------------------------------------
-- Causes for Callers
------------------------------------------------------------

namespace LatticeSignature

open Outcome Encoding

/- A refusal is reworded, and a value is put in another form. -/
theorem map_lift_eq_fail_iff
    {α β : Type}
    (f : α → β)
    (r : Outcome SchemeError α)
    (cause : ApiError) :
    f <$> ApiError.lift r = fail cause
      ↔ ∃ inner,
        r = fail inner ∧ ApiError.ofScheme inner = cause := by
  unfold ApiError.lift fail
  rcases r with stop | value
  · cases stop <;>
      simp [mapError, mapStop, Functor.map, Except.map]
  · simp [mapError, Functor.map, Except.map]

------------------------------------------------------------
-- Public Keys
------------------------------------------------------------

/- A public key is refused for its size alone. -/
theorem PublicKey.deserialize_eq
    (p : ParameterSet)
    (s : Bytes) :
    deserialize p s =
      if s.length = p.publicKeyBytes then
        .ok ⟨s⟩
      else
        fail (.invalidLength "key" p.publicKeyBytes s.length) := by
  unfold deserialize
  split
  · rename_i hSize
    rcases unpackPublicKey_returns hSize with ⟨parts, hParts, _⟩
    rw [hParts]
    rfl
  · rename_i hSize
    rw [unpackPublicKey_eq_fail hSize]
    rfl

------------------------------------------------------------
-- Faults of Secret Keys
------------------------------------------------------------

namespace SecretKey

/-
  The cause for which a byte string is refused as a secret
  key, if it is.
-/
def fault?
    (p : ParameterSet)
    (s : Bytes) : Option ApiError :=
  if s.length ≠ p.secretKeyBytes then
    some (.invalidLength "key" p.secretKeyBytes s.length)
  else if ¬ SecretsFit p (secretFields p s) then
    some
      (.invalidSignature "deserialization"
        "secret coefficient out of range")
  else
    none

variable {p : ParameterSet}
variable {s : Bytes}

/- Faults are those that unpacking reports to callers. -/
theorem lift_unpackSecretKey_ends
    (p : ParameterSet)
    (s : Bytes) :
    Ends
      (fun stop =>
        ∃ cause, fault? p s = some cause ∧ stop = .error cause)
      (ApiError.lift (unpackSecretKey p s))
      fun key =>
        fault? p s = none ∧ unpackSecretKey p s = .ok key := by
  by_cases hSize : s.length = p.secretKeyBytes
  · refine ((unpackSecretKey_ends hSize).with_eq.mapError
      ApiError.ofScheme).weaken ?_ |>.mono ?_
    · rintro _ ⟨_, ⟨rfl, hOut⟩, rfl⟩
      refine ⟨_, ?_, rfl⟩
      rw [fault?, if_neg (not_not.2 hSize), if_pos hOut]
      rfl
    · rintro key ⟨hKey, hFit⟩
      refine ⟨?_, hKey⟩
      rw [fault?, if_neg (not_not.2 hSize), if_neg (not_not.2 hFit)]
  · refine Or.inr ⟨_, ?_, _, if_pos hSize, rfl⟩
    rw [unpackSecretKey_eq_fail hSize]
    rfl

/- A secret key is refused for its fault. -/
theorem deserialize_eq
    (p : ParameterSet)
    (s : Bytes) :
    deserialize p s =
      match fault? p s with
      | some cause => fail cause
      | none => .ok ⟨s⟩ := by
  unfold deserialize
  rcases lift_unpackSecretKey_ends p s with
    ⟨key, hLift, hNone, _⟩ | ⟨_, hLift, cause, hFault, rfl⟩
  · rw [hLift, hNone]
    rfl
  · rw [hLift, hFault]
    rfl

/- A public key is not derived where the secret key is faulty. -/
theorem publicKey_ends
    (b : Backend)
    (key : SecretKey) :
    Ends
      (fun stop =>
        (∃ cause,
          fault? p key.bytes = some cause ∧ stop = .error cause)
          ∨ fault? p key.bytes = none
            ∧ (stop = .exhausted
              ∨ stop =
                .error
                  (.invalidKey "secret key"
                    "stored tr does not match the public key")))
      (key.publicKey p b)
      fun _ => fault? p key.bytes = none := by
  have hUnpack := lift_unpackSecretKey_ends p key.bytes
  have hScheme :=
    (Scheme.publicKeyOfSecret_ends p b key.bytes).with_eq.mapError
      ApiError.ofScheme
  refine Ends.map (hScheme.weaken ?_) (f := PublicKey.mk) ?_
  · rintro _ ⟨stop, hStops, rfl⟩
    rcases hStops with hStop | ⟨parts, hKey, hStops⟩
    · left
      rw [hStop] at hUnpack
      rcases hUnpack with ⟨_, hOk, _⟩ | ⟨_, hLift, cause, hFault, rfl⟩
      · cases hOk
      · refine ⟨cause, hFault, ?_⟩
        injection hLift
    · right
      rw [hKey] at hUnpack
      refine ⟨(hUnpack.of_eq_ok rfl).1, ?_⟩
      rcases hStops with ⟨rfl, _⟩ | ⟨rfl, _⟩
      · exact Or.inl rfl
      · exact Or.inr rfl
  · rintro publicKey ⟨hOk, _⟩
    rcases Scheme.publicKeyOfSecret_eq_ok_iff.1 hOk with
      ⟨parts, _, _, _, hKey, _⟩
    rw [hKey] at hUnpack
    exact (hUnpack.of_eq_ok rfl).1

/- Apart from its fault, a secret key is refused for its digest. -/
theorem publicKey_eq_fail
    {b : Backend}
    {key : SecretKey}
    {cause : ApiError}
    (hFail : key.publicKey p b = fail cause) :
    fault? p key.bytes = some cause
      ∨ cause =
        .invalidKey "secret key"
          "stored tr does not match the public key" := by
  rcases key.publicKey_ends (p := p) b with
    ⟨_, hOk, _⟩ | ⟨stop, hStop, hAllowed⟩
  · rw [hFail] at hOk
    cases hOk
  · have hSame : Stop.error cause = stop :=
      Except.error.inj (hFail.symm.trans hStop)
    rcases hAllowed with ⟨fault, hSome, hError⟩ | ⟨_, hOther⟩
    · cases hSame.trans hError
      exact Or.inl hSome
    · rcases hOther with hExhausted | hError
      · cases hSame.trans hExhausted
      · cases hSame.trans hError
        exact Or.inr rfl

/- The key is tested for its fault before the context is. -/
theorem map_refusal?
    (p : ParameterSet)
    (s context : Bytes) :
    (Scheme.refusal? p s context).map ApiError.ofScheme =
      (fault? p s).or
        (if 255 < context.length then
          some (.ofScheme (.contextTooLong context.length))
        else
          none) := by
  unfold Scheme.refusal? fault?
  split
  · rfl
  · split
    · rfl
    · split <;> rfl

/- A message is not signed where the secret key is faulty. -/
theorem signWith_eq_fail_iff
    (b : Backend)
    (key : SecretKey)
    (message context : Bytes)
    (randomizer : Seed)
    (cause : ApiError) :
    (key.signWith p b message context randomizer).outcome =
        fail cause
      ↔ fault? p key.bytes = some cause
        ∨ fault? p key.bytes = none
          ∧ 255 < context.length
          ∧ cause = .ofScheme (.contextTooLong context.length) := by
  have hScheme :
      (key.signWith p b message context randomizer).outcome =
          fail cause
        ↔ (Scheme.refusal? p key.bytes context).map
            ApiError.ofScheme =
          some cause := by
    rw [Option.map_eq_some_iff]
    simp only [← Scheme.sign_eq_fail_iff p b key.bytes message
      context randomizer]
    exact map_lift_eq_fail_iff _ _ _
  rw [hScheme, map_refusal?]
  cases fault? p key.bytes with
  | some fault => simp
  | none => simp [eq_comm]

------------------------------------------------------------
-- Keys That Callers Hold
------------------------------------------------------------

/- A decoded key is the byte string, which has no fault. -/
theorem of_ofBytes
    {key : SecretKey}
    (hKey : ofBytes s = .ok key) :
    key.bytes = s
      ∧ ∀ p : ParameterSet,
        s.length = p.secretKeyBytes → fault? p s = none := by
  constructor
  · unfold ofBytes at hKey
    split at hKey
    · rcases (bind_eq_ok_iff _ _ _).1 hKey with ⟨_, _, hSame⟩
      cases hSame
      rfl
    · cases hKey
  · intro p hSize
    rw [ofBytes, hSize,
      ParameterSet.withSize?_size
        ParameterSet.secretKeyBytes_injective] at hKey
    rcases (bind_eq_ok_iff _ _ _).1 hKey with ⟨parts, hParts, _⟩
    have hUnpack := lift_unpackSecretKey_ends p s
    rw [hParts] at hUnpack
    exact (hUnpack.of_eq_ok rfl).1

/- A decoded key has at most the fault that it has another size. -/
theorem fault?_of_ofBytes
    {key : SecretKey}
    (hKey : ofBytes s = .ok key)
    (p : ParameterSet) :
    fault? p key.bytes =
      if s.length = p.secretKeyBytes then
        none
      else
        some (.invalidLength "key" p.secretKeyBytes s.length) := by
  rcases of_ofBytes hKey with ⟨hBytes, hNone⟩
  rw [hBytes]
  split
  · rename_i hSize
    exact hNone p hSize
  · rename_i hSize
    exact if_pos hSize

/- A field whose bits are all set is out of range. -/
theorem not_secretsFit_of_drop
    (p : ParameterSet)
    {rest : Bytes}
    (hFirst : s.drop 128 = 0xFF :: rest) :
    ¬ SecretsFit p (secretFields p s) := by
  intro hFit
  rw [secretFields, packedFields, hFirst] at hFit
  cases p with
  | mldsa44 => exact absurd (hFit 7 (.head _)) (by decide)
  | mldsa65 => exact absurd (hFit 15 (.head _)) (by decide)
  | mldsa87 => exact absurd (hFit 7 (.head _)) (by decide)

------------------------------------------------------------
-- Blamed Signatures
------------------------------------------------------------

theorem deserialize_eq_fail
    {cause : ApiError}
    (hFail : deserialize p s = fail cause) :
    fault? p s = some cause := by
  rw [deserialize_eq] at hFail
  split at hFail
  · rename_i hFault
    cases hFail
    exact hFault
  · cases hFail

/- A signature is blamed where the size is right. -/
theorem isInvalidSignature_of_fault?
    {cause : ApiError}
    (hFault : fault? p s = some cause) :
    cause.isInvalidSignature = true
      ↔ s.length = p.secretKeyBytes := by
  unfold fault? at hFault
  split at hFault
  · rename_i hSize
    cases hFault
    simp [ApiError.isInvalidSignature, hSize]
  · rename_i hSize
    split at hFault
    · cases hFault
      simp [ApiError.isInvalidSignature, not_not.1 hSize]
    · cases hFault

/- A key whose bits are all set is such a key. -/
theorem deserialize_ones
    (p : ParameterSet) :
    deserialize p (List.replicate p.secretKeyBytes 0xFF) =
      fail
        (.invalidSignature "deserialization"
          "secret coefficient out of range") := by
  obtain ⟨count, hCount⟩ :
      ∃ count, p.secretKeyBytes - 128 = count + 1 := by
    refine ⟨p.secretKeyBytes - 129, ?_⟩
    cases p <;> rfl
  have hDrop :
      (List.replicate p.secretKeyBytes (0xFF : UInt8)).drop 128 =
        0xFF :: List.replicate count 0xFF := by
    rw [List.drop_replicate, hCount, List.replicate_succ]
  have hSize :
      ¬ (List.replicate p.secretKeyBytes (0xFF : UInt8)).length ≠
        p.secretKeyBytes :=
    not_not.2 List.length_replicate
  rw [deserialize_eq, fault?, if_neg hSize,
    if_pos (not_secretsFit_of_drop p hDrop)]

/- No request with a decoded key blames a signature. -/
theorem isInvalidSignature_of_ofBytes
    {key : SecretKey}
    {b : Backend}
    {cause : ApiError}
    (hKey : ofBytes s = .ok key)
    (hFail :
      key.publicKey p b = fail cause
        ∨ ∃ message context,
          (key.sign p b message context).outcome = fail cause) :
    cause.isInvalidSignature = false := by
  have hFault :
      ∀ fault, fault? p key.bytes = some fault →
        fault.isInvalidSignature = false := by
    intro fault hSome
    rw [fault?_of_ofBytes hKey] at hSome
    split at hSome
    · cases hSome
    · cases hSome
      rfl
  rcases hFail with hFail | ⟨message, context, hFail⟩
  · rcases publicKey_eq_fail hFail with hSome | rfl
    · exact hFault _ hSome
    · rfl
  · rcases (key.signWith_eq_fail_iff b message context _ cause).1
        hFail with
      hSome | ⟨_, _, rfl⟩
    · exact hFault _ hSome
    · rfl

------------------------------------------------------------
-- Causes of Malformed Keys
------------------------------------------------------------

/-
  Every byte string that is no public key has a wrong length
  as its cause.  A secret key is refused by its decoder, in
  deriving a public key and in signing for the same fault,
  which is its length, or else that it is an invalid
  signature: this is what callers see of every secret key that
  has the right size and a field out of range.  Apart from its
  fault, a secret key is refused for its digest only, and a
  context for its length.  Where a key was decoded before, no
  cause is an invalid signature.
-/
theorem decoder_blames_signature
    (p : ParameterSet) :
    (∀ s : Bytes,
      PublicKey.deserialize p s =
        if s.length = p.publicKeyBytes then
          .ok ⟨s⟩
        else
          fail (.invalidLength "key" p.publicKeyBytes s.length))
      ∧ (∀ s : Bytes,
        deserialize p s =
          match fault? p s with
          | some cause => fail cause
          | none => .ok ⟨s⟩)
      ∧ (∀ (s : Bytes) (cause : ApiError),
        deserialize p s = fail cause →
          (cause.isInvalidSignature = true
            ↔ s.length = p.secretKeyBytes))
      ∧ (∃ s : Bytes,
        s.length = p.secretKeyBytes
          ∧ deserialize p s =
            fail
              (.invalidSignature "deserialization"
                "secret coefficient out of range"))
      ∧ (∀ (b : Backend) (key : SecretKey),
        Ends
            (fun stop =>
              (∃ cause,
                fault? p key.bytes = some cause
                  ∧ stop = .error cause)
                ∨ fault? p key.bytes = none
                  ∧ (stop = .exhausted
                    ∨ stop =
                      .error
                        (.invalidKey "secret key"
                          "stored tr does not match the public key")))
            (key.publicKey p b)
            (fun _ => fault? p key.bytes = none)
          ∧ ∀ (message context : Bytes) (cause : ApiError),
            (key.sign p b message context).outcome = fail cause
              ↔ fault? p key.bytes = some cause
                ∨ fault? p key.bytes = none
                  ∧ 255 < context.length
                  ∧ cause =
                    .ofScheme (.contextTooLong context.length))
      ∧ ∀ (s : Bytes) (key : SecretKey) (b : Backend)
          (cause : ApiError),
        ofBytes s = .ok key →
          (key.publicKey p b = fail cause
            ∨ ∃ message context,
              (key.sign p b message context).outcome =
                fail cause) →
            cause.isInvalidSignature = false := by
  refine ⟨PublicKey.deserialize_eq p, deserialize_eq p, ?_, ?_, ?_,
    ?_⟩
  · intro s cause hFail
    exact isInvalidSignature_of_fault? (deserialize_eq_fail hFail)
  · exact ⟨_, List.length_replicate, deserialize_ones p⟩
  · intro b key
    exact ⟨key.publicKey_ends b, fun message context cause =>
      key.signWith_eq_fail_iff b message context _ cause⟩
  · intro s key b cause hKey hFail
    exact isInvalidSignature_of_ofBytes hKey hFail

end SecretKey

end LatticeSignature
