import LatticeSignature.Api.Values
import LatticeSignature.Proofs.Scheme.KeyGeneration
import LatticeSignature.Proofs.Scheme.Signing
import LatticeSignature.Proofs.Scheme.Verification

/-
  A byte string is decoded for its own parameter set, or not
  at all.  What the scheme makes, and what it accepts, can be
  decoded.

  Main declarations:
    * `ParameterSet.withSize?_size`
    * `ParameterSet.lift_check_eq_ok_iff`
    * `SecretKey.deserialize_eq_ok_iff`
    * `Signature.deserialize_eq_ok_iff`
    * `Signature.check_eq_ok_iff`
    * `SecretKey.Decodes`, `Signature.Decodes`
    * `decoders_agree`
-/

------------------------------------------------------------
-- Parameter Sets by Size
------------------------------------------------------------

namespace LatticeSignature

open Outcome

namespace ParameterSet

/- A parameter set is found by a size that no other one has. -/
theorem withSize?_size
    {size : ParameterSet → Nat}
    (hInjective : Function.Injective size)
    (p : ParameterSet) :
    withSize? size (size p) = some p := by
  have hSame :
      ∀ p' : ParameterSet,
        (size p' == size p) = decide (p' = p) := by
    intro p'
    rw [Bool.beq_eq_decide_eq]
    exact decide_eq_decide.2 hInjective.eq_iff
  unfold withSize?
  simp only [hSame]
  cases p <;> rfl

/- The size of a secret key tells its parameter set. -/
theorem secretKeyBytes_injective :
    Function.Injective secretKeyBytes := by
  intro p p' hSize
  rw [secretKeyBytes_eq, secretKeyBytes_eq] at hSize
  cases p <;> cases p' <;> simp at hSize ⊢

/- So does the size of a signature. -/
theorem signatureBytes_injective :
    Function.Injective signatureBytes := by
  intro p p' hSize
  rw [signatureBytes_eq, signatureBytes_eq] at hSize
  cases p <;> cases p' <;> simp at hSize ⊢

/-
  A check for one parameter set passes if and only if the size
  is that of the parameter set, and the check that the size
  leads to passes.
-/
theorem lift_check_eq_ok_iff
    {α : ParameterSet → Type}
    {β : Type}
    {p : ParameterSet}
    {size : ParameterSet → Nat}
    {cause : SchemeError}
    {length : Nat}
    {value v : β}
    (check : (p : ParameterSet) → Outcome SchemeError (α p))
    (hInjective : Function.Injective size)
    (hSize : ∀ {p a}, check p = .ok a → length = size p) :
    (ApiError.lift (check p) >>= fun _ => .ok value) = .ok v
      ↔ length = size p
        ∧ (match withSize? size length with
          | some p => check p >>= fun _ => .ok value
          | none => Outcome.fail cause) = .ok v := by
  have hLift :
      (ApiError.lift (check p) >>= fun _ => .ok value) = .ok v
        ↔ (check p >>= fun _ => .ok value) = .ok v := by
    simp only [ApiError.lift, bind_eq_ok_iff,
      mapError_eq_ok_iff, Except.ok.injEq]
  rw [hLift]
  constructor
  · intro hOk
    rcases (bind_eq_ok_iff _ _ _).1 hOk with ⟨a, hCheck, _⟩
    have hLength := hSize hCheck
    rw [hLength, withSize?_size hInjective]
    exact ⟨rfl, hOk⟩
  · intro hFound
    rcases hFound with ⟨hLength, hOk⟩
    rw [hLength, withSize?_size hInjective] at hOk
    exact hOk

end ParameterSet

------------------------------------------------------------
-- Secret Keys
------------------------------------------------------------

namespace SecretKey

variable {p : ParameterSet}
variable {s : Bytes}

/-
  The parameter set is given, and the size has to be its own.
-/
theorem deserialize_eq_ok_iff
    {v : SecretKey} :
    deserialize p s = .ok v
      ↔ s.length = p.secretKeyBytes ∧ ofBytes s = .ok v := by
  refine ParameterSet.lift_check_eq_ok_iff
    (fun p => Encoding.unpackSecretKey p s)
    ParameterSet.secretKeyBytes_injective ?_
  intro p key hKey
  by_contra hSize
  rw [Encoding.unpackSecretKey_eq_fail hSize] at hKey
  cases hKey

/- Both decoders accept the secret key. -/
def Decodes
    (p : ParameterSet)
    (s : Bytes) : Prop :=
  deserialize p s = .ok ⟨s⟩ ∧ ofBytes s = .ok ⟨s⟩

/- A key that is unpacked passes both decoders. -/
theorem decodes_of_unpackSecretKey
    {key : SecretParts p}
    (hKey : Encoding.unpackSecretKey p s = .ok key) :
    Decodes p s := by
  have hDeserialize : deserialize p s = .ok ⟨s⟩ := by
    rw [deserialize, hKey]
    rfl
  exact
    ⟨hDeserialize, (deserialize_eq_ok_iff.1 hDeserialize).2⟩

end SecretKey

------------------------------------------------------------
-- Signatures
------------------------------------------------------------

namespace Signature

variable {p : ParameterSet}
variable {s : Bytes}

/- A signature passes if its parts are found and are short. -/
theorem check_eq_ok_iff :
    check p s = .ok ()
      ↔ ∃ parts,
        Encoding.unpackSignature p s = .ok parts
          ∧ ∀ (i : Fin p.columns) (k : Fin degree),
            |parts.z[i][k]| < p.gamma1 - p.beta := by
  unfold check
  rw [bind_eq_ok_iff]
  apply exists_congr
  intro parts
  apply and_congr_right
  intro hParts
  have hRange := (Encoding.unpackSignature_eq_ok_iff.1 hParts).1
  have hWords : parts.z.Within 2147483647 :=
    (Scheme.within_response hRange.z).mono (by decide)
  rw [require_eq_ok_iff, Bool.not_eq_true',
    PolyVec.exceedsNorm_eq_false_iff hWords
      (Scheme.responseBound_le p)]
  rfl

/- The same for signatures. -/
theorem deserialize_eq_ok_iff
    {v : Signature} :
    deserialize p s = .ok v
      ↔ s.length = p.signatureBytes ∧ ofBytes s = .ok v := by
  refine ParameterSet.lift_check_eq_ok_iff
    (fun p => check p s)
    ParameterSet.signatureBytes_injective ?_
  intro p checked hCheck
  rcases check_eq_ok_iff.1 hCheck with ⟨parts, hParts, _⟩
  rcases Encoding.unpackSignature_eq_ok_iff.1 hParts with
    ⟨hRange, hPack⟩
  exact ((Encoding.packSignature_returns hRange).of_eq_ok hPack).1

/- Both decoders accept the signature. -/
def Decodes
    (p : ParameterSet)
    (s : Bytes) : Prop :=
  deserialize p s = .ok ⟨s⟩ ∧ ofBytes s = .ok ⟨s⟩

/- A signature in its range passes both decoders. -/
theorem decodes_of_check
    (hCheck : check p s = .ok ()) :
    Decodes p s := by
  have hDeserialize : deserialize p s = .ok ⟨s⟩ := by
    rw [deserialize, hCheck]
    rfl
  exact
    ⟨hDeserialize, (deserialize_eq_ok_iff.1 hDeserialize).2⟩

/- What verification accepts can be decoded. -/
theorem decodes_of_accepts
    {b : Backend}
    {publicKey message context : Bytes}
    (h : Scheme.Accepts p b publicKey message context s) :
    Decodes p s := by
  rcases h with
    ⟨_, _, _, _, parts, _, _, _, _, hRange, hPack, hSignature⟩
  apply decodes_of_check
  rw [check_eq_ok_iff]
  exact
    ⟨parts,
      Encoding.unpackSignature_eq_ok_iff.2 ⟨hRange, hPack⟩,
      hSignature.norm⟩

/- The signature of a candidate that passes can be decoded. -/
theorem decodes_of_passes
    {x : Candidate p}
    (hPasses : x.Passes)
    (hUnpack :
      Encoding.unpackSignature p s = .ok x.signature) :
    Decodes p s := by
  apply decodes_of_check
  rw [check_eq_ok_iff]
  refine ⟨x.signature, hUnpack, ?_⟩
  intro i k
  rw [Candidate.getElem_signature_z]
  exact hPasses.response i k

end Signature

------------------------------------------------------------
-- Decoders
------------------------------------------------------------

/-
  The decoder for a parameter set accepts the byte strings of
  its size that the decoder for all of them accepts.  Both of
  them accept every signature that is verified or made, and
  every secret key that is made.
-/
theorem decoders_agree
    (p : ParameterSet) :
    (∀ (s : Bytes) (v : Signature),
      Signature.deserialize p s = .ok v
        ↔ s.length = p.signatureBytes
          ∧ Signature.ofBytes s = .ok v)
      ∧ (∀ (b : Backend)
          (publicKey message context s : Bytes),
        (Scheme.verify p b publicKey message context
            s).outcome = .ok () →
          Signature.Decodes p s)
      ∧ (∀ (b : Backend) (secretKey message context : Bytes)
          (randomizer : Seed) (s : Bytes),
        (Scheme.sign p b secretKey message context
            randomizer).outcome = .ok s →
          Signature.Decodes p s)
      ∧ (∀ (s : Bytes) (v : SecretKey),
        SecretKey.deserialize p s = .ok v
          ↔ s.length = p.secretKeyBytes
            ∧ SecretKey.ofBytes s = .ok v)
      ∧ ∀ (b : Backend) (seed : Seed)
          (keys : Scheme.KeyPairBytes),
        (Scheme.generate p b seed).outcome = .ok keys →
          SecretKey.Decodes p keys.secretKey := by
  refine ⟨fun s v => Signature.deserialize_eq_ok_iff, ?_, ?_,
    fun s v => SecretKey.deserialize_eq_ok_iff, ?_⟩
  · intro b publicKey message context s hVerified
    exact Signature.decodes_of_accepts
      (Scheme.accepts_of_verify hVerified)
  · intro b secretKey message context randomizer s hSigned
    rcases (Scheme.sign_ends p b secretKey message context
        randomizer).of_eq_ok hSigned with
      ⟨x, n, hCandidate, _, hUnpack, _⟩
    exact Signature.decodes_of_passes hCandidate.passes hUnpack
  · intro b seed keys hKeys
    rcases (Scheme.keyPairOfSeed_yields p b seed).of_eq_ok
        hKeys with
      ⟨key, t, high, hGenerated⟩
    exact SecretKey.decodes_of_unpackSecretKey
      hGenerated.secretKey

end LatticeSignature
