import LatticeSignature.Proofs.Keccak.Xof
import LatticeSignature.Proofs.Scheme.KeyGeneration
import LatticeSignature.Proofs.Scheme.SigningErrors
import LatticeSignature.Scheme.Verification

/-
  The bytes that are hashed for a message tell its context and
  the message itself, and both sides hash the same bytes.  All
  that signing and verification learn about a message and its
  context is the digest of these bytes.  A context that does
  not fit its length byte is never hashed.

  Main declarations:
    * `Scheme.frame_injective`
    * `Scheme.framed`, `Scheme.framed_eq_ok_iff`
    * `Scheme.messageDigest_eq_framed`
    * `Scheme.signDigest`, `Scheme.sign_outcome_eq_framed`
    * `Scheme.compareDigest`, `Scheme.check_eq_framed`
    * `Scheme.sign_long_context`, `Scheme.verify_long_context`
    * `Scheme.Generated.framed_eq`
    * `Scheme.framing_binds_messages`
-/

------------------------------------------------------------
-- Frames
------------------------------------------------------------

namespace LatticeSignature

namespace Scheme

open Outcome Encoding

variable {p : ParameterSet}
variable {tr context context' message message' bytes : Bytes}

/- The length of a context that fits is not cut. -/
theorem toNat_lengthByte
    (hFits : context.length ≤ 255) :
    (UInt8.ofNat context.length).toNat = context.length := by
  rw [UInt8.toNat_ofNat']
  omega

/- The length byte tells where the context ends. -/
theorem frame_injective
    (hFits : context.length ≤ 255)
    (hFits' : context'.length ≤ 255)
    (hSame :
      frame tr context message = frame tr context' message') :
    context = context' ∧ message = message' := by
  unfold frame at hSame
  rw [List.append_assoc, List.append_assoc, List.append_assoc,
    List.append_assoc] at hSame
  have hRest := List.append_cancel_left hSame
  simp only [List.cons_append, List.nil_append, List.cons.injEq,
    true_and] at hRest
  have hLength := congrArg UInt8.toNat hRest.1
  rw [toNat_lengthByte hFits, toNat_lengthByte hFits'] at hLength
  exact List.append_inj hRest.2 hLength

/- The same bytes, cut in two places, are framed apart. -/
example :
    frame [] [1, 2] [3] ≠ frame [] [1] [2, 3] := by
  decide

/-
  The bytes that are hashed for a message, unless its context
  is refused.
-/
def framed
    (tr context message : Bytes) : Outcome SchemeError Bytes := do
  require
    (context.length ≤ maxContextBytes)
    (.contextTooLong context.length)
  return frame tr context message

theorem framed_eq_ok_iff :
    framed tr context message = .ok bytes
      ↔ context.length ≤ 255
        ∧ frame tr context message = bytes := by
  rw [framed, bind_eq_ok_iff]
  constructor
  · intro hOk
    rcases hOk with ⟨⟨⟩, hFits, hBytes⟩
    exact
      ⟨of_decide_eq_true ((require_eq_ok_iff _ _).1 hFits),
        Except.ok.inj hBytes⟩
  · intro hOk
    rcases hOk with ⟨hFits, rfl⟩
    exact
      ⟨(), (require_eq_ok_iff _ _).2 (decide_eq_true hFits), rfl⟩

theorem framed_eq_fail
    (tr message : Bytes)
    (hLong : 255 < context.length) :
    framed tr context message =
      fail (.contextTooLong context.length) := by
  have hRefused :
      decide (context.length ≤ maxContextBytes) = false :=
    decide_eq_false (Nat.not_le.2 hLong)
  rw [framed, hRefused]
  rfl

/- The digest of a message is that of its frame. -/
theorem messageDigest_eq_framed
    (tr context message : Bytes) :
    messageDigest tr context message =
      framed tr context message >>= fun bytes =>
        .ok (Keccak.shake256 bytes 64) := by
  unfold messageDigest framed
  rw [bind_assoc]
  rfl

/-
  The context fits its length byte, and the bytes are those
  that an extendable output absorbs for the digest, part by
  part.
-/
structure IsFrame
    (tr context message bytes : Bytes) : Prop where
  fits : context.length ≤ 255
  lengthByte :
    (UInt8.ofNat context.length).toNat = context.length
  parts :
    bytes =
      tr ++ [0, UInt8.ofNat context.length] ++ context ++ message
  absorbed :
    Xof.generateFromParts
        [tr, [0, UInt8.ofNat context.length], context, message]
        64 =
      .ok (Keccak.shake256 bytes 64)
  digest :
    messageDigest tr context message =
      .ok (Keccak.shake256 bytes 64)

theorem framed_eq_ok_iff_isFrame :
    framed tr context message = .ok bytes
      ↔ IsFrame tr context message bytes := by
  rw [framed_eq_ok_iff]
  constructor
  · intro hOk
    rcases hOk with ⟨hFits, rfl⟩
    exact
      { fits := hFits
        lengthByte := toNat_lengthByte hFits
        parts := rfl
        absorbed := by
          rw [Xof.generateFromParts_eq_ok]
          simp [frame]
        digest := messageDigest_eq_ok tr message hFits }
  · intro h
    exact ⟨h.fits, h.parts.symm⟩

------------------------------------------------------------
-- Signing and Verification from Digests
------------------------------------------------------------

/- What all attempts for the digest of a message share. -/
def prepareDigest
    (b : Backend)
    (key : SecretParts p)
    (randomizer : Seed)
    (digest : Bytes) : Outcome SchemeError (Preparation p) := do
  let maskSeed :=
    Keccak.shake256
      (key.key.toList ++ randomizer.toList ++ digest)
      digestBytes
  let matrix ← Sampling.matrix p b key.rho
  let s1 ← key.s1.transform
  let s2 ← key.s2.transform
  let t0 ← key.t0.transform
  return { digest, maskSeed, matrix, s1, s2, t0 }

/- What signing does with the digest of a message. -/
def signDigest
    (b : Backend)
    (key : SecretParts p)
    (randomizer : Seed)
    (digest : Bytes) : Outcome SchemeError Bytes := do
  let k ← prepareDigest b key randomizer digest
  let (_, signature) ← search (signatureOf b k) maxAttempts 0
  return signature

theorem prepare_eq_framed
    (p : ParameterSet)
    (b : Backend)
    (secretKey message context : Bytes)
    (randomizer : Seed) :
    prepare p b secretKey message context randomizer =
      unpackSecretKey p secretKey >>= fun key =>
        framed key.tr.toList context message >>= fun bytes =>
          prepareDigest b key randomizer
            (Keccak.shake256 bytes 64) := by
  unfold prepare
  apply bind_congr
  intro key
  rw [messageDigest_eq_framed, bind_assoc]
  rfl

/-
  Signing decodes its key, makes a frame and hashes it.  What
  follows knows the message and its context by the digest.
-/
theorem sign_outcome_eq_framed
    (p : ParameterSet)
    (b : Backend)
    (secretKey message context : Bytes)
    (randomizer : Seed) :
    (sign p b secretKey message context randomizer).outcome =
      unpackSecretKey p secretKey >>= fun key =>
        framed key.tr.toList context message >>= fun bytes =>
          signDigest b key randomizer
            (Keccak.shake256 bytes 64) := by
  rw [sign_outcome_eq_search, prepare_eq_framed, bind_assoc]
  apply bind_congr
  intro key
  rw [bind_assoc]
  rfl

/- What verification does with the digest of a message. -/
def compareDigest
    (b : Backend)
    (key : PublicParts p)
    (parts : SignatureParts p)
    (digest : Bytes) : Outcome SchemeError Bool := do
  let w ← restoreCommitment b key parts
  let seed ← challengeSeed p digest w
  return parts.challenge == seed

/-
  Verification decodes its key and its signature, and hashes a
  frame if the response is small.
-/
theorem check_eq_framed
    (p : ParameterSet)
    (b : Backend)
    (publicKey message context signature : Bytes) :
    check p b publicKey message context signature =
      unpackPublicKey p publicKey >>= fun key =>
        unpackSignature p signature >>= fun parts =>
          if parts.z.exceedsNorm (responseBound p) then
            .ok false
          else
            framed (keyDigest publicKey).toList context message >>=
              fun bytes =>
                compareDigest b key parts
                  (Keccak.shake256 bytes 64) := by
  unfold check
  apply bind_congr
  intro key
  apply bind_congr
  intro parts
  by_cases hNorm : parts.z.exceedsNorm (responseBound p) = true
  · rw [if_pos hNorm, if_pos hNorm]
    rfl
  · rw [if_neg hNorm, if_neg hNorm, messageDigest_eq_framed,
      bind_assoc]
    apply bind_congr
    intro bytes
    rw [ok_bind]
    rfl

------------------------------------------------------------
-- Long Contexts
------------------------------------------------------------

/- Signing is refused for a context that is too long. -/
theorem sign_long_context
    (p : ParameterSet)
    (b : Backend)
    (secretKey message : Bytes)
    (randomizer : Seed)
    (hLong : 255 < context.length) :
    ∃ cause,
      (sign p b secretKey message context randomizer).outcome =
        fail cause := by
  cases hRefusal : refusal? p secretKey context with
  | none =>
      have hFits := (refusal?_eq_none_iff.1 hRefusal).2.2
      exact absurd hFits (Nat.not_le.2 hLong)
  | some cause =>
      exact
        ⟨cause,
          (sign_eq_fail_iff p b secretKey message context
            randomizer cause).2 hRefusal⟩

/- So is verification, whatever the key and the signature. -/
theorem verify_long_context
    (p : ParameterSet)
    (b : Backend)
    (publicKey message signature : Bytes)
    (hLong : 255 < context.length) :
    (verify p b publicKey message context signature).outcome =
      fail (.verification p.name) := by
  have hCheck :
      Decides (check p b publicKey message context signature)
        (· = false) := by
    rw [check_eq_framed, framed_eq_fail _ _ hLong]
    refine (unpackPublicKey_decides p publicKey).bind ?_
    intro key _
    refine (unpackSignature_decides p signature).bind ?_
    intro parts _
    split
    · exact Or.inl (returns_ok rfl)
    · exact Or.inr ⟨_, rfl, _, rfl⟩
  unfold verify
  rcases hCheck with ⟨_, hOk, rfl⟩ | ⟨_, hStop, _, rfl⟩
  · rw [hOk]
  · rw [hStop]

------------------------------------------------------------
-- Both Sides
------------------------------------------------------------

/- The digest in a generated key is the one verifiers compute. -/
theorem Generated.framed_eq
    {b : Backend}
    {keys : KeyPairBytes}
    {key : SecretParts p}
    {t high : PolyVec p.rows}
    (h : Generated b keys key t high)
    (context message : Bytes) :
    framed key.tr.toList context message =
      framed (keyDigest keys.publicKey).toList context
        message := by
  rw [h.tr]

/-
  The bytes that are hashed for a message tell its context and
  the message.  Signing and verification hash such bytes, under
  the digest that their key gives, and depend on the message
  and its context through their hash alone.  Contexts that are
  too long are refused on both sides before anything is hashed,
  and with generated keys both sides hash the same bytes.
-/
theorem framing_binds_messages
    (p : ParameterSet)
    (b : Backend) :
    (∀ tr context context' message message' bytes : Bytes,
      framed tr context message = .ok bytes →
        framed tr context' message' = .ok bytes →
          context = context' ∧ message = message')
      ∧ (∀ tr context message : Bytes,
        (∀ bytes,
          framed tr context message = .ok bytes
            ↔ IsFrame tr context message bytes)
          ∧ (255 < context.length →
            framed tr context message =
              fail (.contextTooLong context.length)))
      ∧ (∀ (secretKey message context : Bytes)
          (randomizer : Seed),
        (sign p b secretKey message context
            randomizer).outcome =
          (unpackSecretKey p secretKey >>= fun key =>
            framed key.tr.toList context message >>=
              fun bytes =>
                signDigest b key randomizer
                  (Keccak.shake256 bytes 64))
          ∧ (255 < context.length →
            ∃ cause,
              (sign p b secretKey message context
                  randomizer).outcome =
                fail cause))
      ∧ (∀ publicKey message context signature : Bytes,
        check p b publicKey message context signature =
          (unpackPublicKey p publicKey >>= fun key =>
            unpackSignature p signature >>= fun parts =>
              if parts.z.exceedsNorm (responseBound p) then
                .ok false
              else
                framed (keyDigest publicKey).toList context
                    message >>=
                  fun bytes =>
                    compareDigest b key parts
                      (Keccak.shake256 bytes 64))
          ∧ (255 < context.length →
            (verify p b publicKey message context
                signature).outcome =
              fail (.verification p.name)))
      ∧ ∀ seed : Seed,
        Yields (generate p b seed).outcome fun keys =>
          ∃ key : SecretParts p,
            unpackSecretKey p keys.secretKey = .ok key
              ∧ ∀ context message : Bytes,
                framed key.tr.toList context message =
                  framed (keyDigest keys.publicKey).toList
                    context message := by
  refine ⟨?_, ?_, ?_, ?_, ?_⟩
  · intro tr context context' message message' bytes hOk hOk'
    rcases framed_eq_ok_iff.1 hOk with ⟨hFits, hBytes⟩
    rcases framed_eq_ok_iff.1 hOk' with ⟨hFits', hBytes'⟩
    exact
      frame_injective hFits hFits' (hBytes.trans hBytes'.symm)
  · intro tr context message
    exact
      ⟨fun _ => framed_eq_ok_iff_isFrame,
        framed_eq_fail tr message⟩
  · intro secretKey message context randomizer
    exact
      ⟨sign_outcome_eq_framed p b secretKey message context
          randomizer,
        sign_long_context p b secretKey message randomizer⟩
  · intro publicKey message context signature
    exact
      ⟨check_eq_framed p b publicKey message context signature,
        verify_long_context p b publicKey message signature⟩
  · intro seed
    refine (keyPairOfSeed_yields p b seed).mono ?_
    intro keys hKeys
    rcases hKeys with ⟨key, t, high, hGenerated⟩
    exact ⟨key, hGenerated.secretKey, hGenerated.framed_eq⟩

end Scheme

end LatticeSignature
