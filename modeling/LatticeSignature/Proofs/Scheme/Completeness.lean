import LatticeSignature.Api.KeyPair
import LatticeSignature.Api.Signing
import LatticeSignature.Api.Verification
import LatticeSignature.Proofs.Scheme.KeyGeneration
import LatticeSignature.Proofs.Scheme.Signing
import LatticeSignature.Proofs.Scheme.Verification
import Mathlib.Tactic.Abel

/-
  What is signed with a generated key is verified with it.
  The verifier finds the commitment of the signer again, since
  the hints make up for the part of the public vector that
  only the signer knows.

  Main declarations:
    * `Scheme.approximation_eq`
    * `Scheme.restoredCommitment_eq_high`
    * `Scheme.accepts_of_signed`
    * `Scheme.verify_of_sign`
    * `Scheme.honest_signatures_verify`
-/

------------------------------------------------------------
-- Commitment of the Signer
------------------------------------------------------------

namespace LatticeSignature

namespace Scheme

open Outcome Negacyclic

variable {p : ParameterSet}
variable {x : Candidate p}
variable {key : PublicParts p}

/- The public vector of a candidate, in two parts. -/
def IsSplit
    (key : PublicParts p)
    (x : Candidate p) : Prop :=
  ∀ (i : Fin p.rows) (k : Fin degree),
    key.t1[i][k] * 2 ^ 13 + x.key.t0[i][k] =
      ((Negacyclic.apply x.matrix.elements x.key.s1.elements
        + x.key.s2.elements) i k).val

/- The shifted high part lacks the low part. -/
theorem shifted_elements
    (h : IsSplit key x)
    (i : Fin p.rows) :
    (2 ^ 13 : Residue) • key.t1.elements i =
      Negacyclic.apply x.matrix.elements x.key.s1.elements i
        + x.key.s2.elements i
        - x.key.t0.elements i := by
  funext k
  have hCast := congrArg (Int.cast : Int → Residue) (h i k)
  rw [Int.cast_natCast, ZMod.natCast_zmod_val] at hCast
  push_cast at hCast
  change (2 ^ 13 : Residue) * (key.t1[i][k] : Residue) =
    _ - (x.key.t0[i][k] : Residue)
  linear_combination hCast

/- The response has the residues of its centred entries. -/
theorem signature_z_elements
    (x : Candidate p) :
    x.signature.z.elements =
      x.mask.elements
        + fun j =>
          product x.challenge.element (x.key.s1.elements j) := by
  funext j k
  change (x.signature.z[j][k] : Residue) = x.response j k
  rw [Candidate.getElem_signature_z, ZMod.coe_valMinAbs]

/-
  The products with `s1` cancel, and what the verifier gets is
  the residual and the correction of the signer.
-/
theorem approximation_eq
    (h : IsSplit key x) :
    approximation key x.signature x.matrix x.challenge =
      x.residual + x.correction := by
  funext i
  have hResponse :
      Negacyclic.apply x.matrix.elements
          x.signature.z.elements i =
        x.commitment i
          + product x.challenge.element
            (Negacyclic.apply x.matrix.elements
              x.key.s1.elements i) := by
    rw [signature_z_elements, apply_add,
      Transform.apply_product]
    rfl
  have hPublic :
      product x.challenge.element
          ((2 ^ 13 : Residue) • key.t1.elements i) =
        product x.challenge.element
            (Negacyclic.apply x.matrix.elements
              x.key.s1.elements i)
          + x.scaled x.key.s2 i
          - x.correction i := by
    rw [shifted_elements h, product_sub, product_add]
    rfl
  calc
    approximation key x.signature x.matrix x.challenge i
      = Negacyclic.apply x.matrix.elements
            x.signature.z.elements i
          - product x.challenge.element
            ((2 ^ 13 : Residue) • key.t1.elements i) := rfl
    _ = x.commitment i - x.scaled x.key.s2 i
          + x.correction i := by
        rw [hResponse, hPublic]
        abel
    _ = (x.residual + x.correction) i := rfl

/- The hints lead the verifier back to the commitment. -/
theorem restoredCommitment_eq_high
    (h : IsSplit key x)
    (hx : x.InRange)
    (hPasses : x.Passes) :
    restoredCommitment key x.signature x.matrix x.challenge =
      x.high := by
  refine Entries.ext_rows fun i k => ?_
  have hRestored :
      (restoredCommitment key x.signature x.matrix
          x.challenge)[i][k] =
        p.buckets.useHint x.hints[i][k]
          (x.residual i k + x.correction i k) := by
    simp only [restoredCommitment, getElem_index,
      Vector.getElem_ofFn, approximation_eq h]
    rfl
  rw [hRestored, Candidate.useHint_hints hx hPasses,
    Candidate.getElem_high]

------------------------------------------------------------
-- Signatures with Generated Keys
------------------------------------------------------------

variable {b : Backend}
variable {keys : KeyPairBytes}
variable {message context signature : Bytes}
variable {randomizer : Seed}

/- Both sides hash the message under the same key digest. -/
theorem messageHash_eq_signedDigest
    {key : SecretParts p}
    {t high : PolyVec p.rows}
    (h : Generated b keys key t high) :
    messageHash keys.publicKey context message =
      signedDigest key context message := by
  rw [messageHash, signedDigest, ← h.tr]
  rfl

/- The signature of an accepted candidate is valid. -/
theorem accepts_of_signed
    {secret : SecretParts p}
    {t high : PolyVec p.rows}
    {n : Nat}
    (h : Generated b keys secret t high)
    (hSigned :
      Signed b keys.secretKey message context randomizer x n)
    (hx : x.InRange)
    (hUnpack :
      Encoding.unpackSignature p signature = .ok x.signature) :
    Accepts p b keys.publicKey message context signature := by
  have hSecret := hSigned.secretKey
  rw [h.secretKey] at hSecret
  injection hSecret with hSecret
  subst hSecret
  rcases h.parts with ⟨matrix, hMatrix, _, hVector⟩
  have hSame := hSigned.matrix
  rw [hMatrix] at hSame
  injection hSame with hSame
  subst hSame
  have hSplit : IsSplit ⟨x.key.rho, high⟩ x := hVector
  rw [accepts_iff h.publicKey hUnpack]
  refine ⟨hSigned.fits, x.matrix, x.challenge, ?_⟩
  exact
    { norm := fun i k => by
        rw [Candidate.getElem_signature_z]
        exact hSigned.passes.response i k
      matrix := hMatrix
      challenge := hSigned.attempt.challenge
      seed := by
        rw [restoredCommitment_eq_high hSplit hx
          hSigned.passes, messageHash_eq_signedDigest h]
        exact hSigned.attempt.seed }

/- Whatever is signed with a generated key is verified. -/
theorem verify_of_sign
    {secret : SecretParts p}
    {t high : PolyVec p.rows}
    (h : Generated b keys secret t high)
    (hSign :
      (sign p b keys.secretKey message context
          randomizer).outcome =
        .ok signature) :
    signature.length = p.signatureBytes
      ∧ (verify p b keys.publicKey message context
          signature).outcome =
        .ok () := by
  rcases (sign_ends p b keys.secretKey message context
      randomizer).of_eq_ok hSign with
    ⟨x, n, hSigned, hx, hUnpack, hLength⟩
  exact
    ⟨hLength,
      verify_eq_ok (accepts_of_signed h hSigned hx hUnpack)⟩

------------------------------------------------------------
-- Embedded Messages
------------------------------------------------------------

/- The keys that callers hold are those of the scheme. -/
theorem ofSeed_eq_ok
    {p : ParameterSet}
    {b : Backend}
    {seed : Seed}
    {pair : KeyPair}
    (h : (KeyPair.ofSeed p b seed).outcome = .ok pair) :
    ∃ keys,
      (generate p b seed).outcome = .ok keys
        ∧ KeyPair.ofPacked keys = pair := by
  rcases (map_eq_ok_iff _ _ _).1 h with ⟨keys, hLift, hPair⟩
  exact ⟨keys, (mapError_eq_ok_iff _ _ _).1 hLift, hPair⟩

/- A signed message is its signature and itself. -/
theorem signEmbedded_eq_ok
    {p : ParameterSet}
    {b : Backend}
    {key : SecretKey}
    {message context signed : Bytes}
    (h :
      (key.signEmbedded p b message context).outcome =
        .ok signed) :
    ∃ signature,
      (sign p b key.bytes message context
          (Vector.replicate 32 0)).outcome =
        .ok signature
        ∧ signature ++ message = signed := by
  rcases (map_eq_ok_iff _ _ _).1 h with ⟨_, hSign, hSigned⟩
  rcases (map_eq_ok_iff _ _ _).1 hSign with
    ⟨signature, hLift, rfl⟩
  exact
    ⟨signature, (mapError_eq_ok_iff _ _ _).1 hLift, hSigned⟩

/- Opening a message behind a valid signature gives it back. -/
theorem openSigned_append
    {p : ParameterSet}
    {b : Backend}
    {publicKey message context signature : Bytes}
    (hLength : signature.length = p.signatureBytes)
    (hVerify :
      (verify p b publicKey message context
          signature).outcome =
        .ok ()) :
    ((PublicKey.mk publicKey).openSigned p b
        (signature ++ message) context).outcome =
      .ok message := by
  have hLong :
      ¬ (signature ++ message).length < p.signatureBytes := by
    rw [List.length_append]
    omega
  unfold PublicKey.openSigned
  rw [if_neg hLong, List.take_left' hLength,
    List.drop_left' hLength]
  unfold PublicKey.verify Report.mapOutcome
  dsimp only
  rw [hVerify]
  rfl

/-
  Verification ends a run of key generation and signing
  without a stop of its own, and a message that was signed
  with an embedded signature is found again.
-/
theorem honest_signatures_verify
    (p : ParameterSet)
    (b : Backend)
    (seed : Seed)
    (message context : Bytes)
    (randomizer : Seed) :
    (do
        let keys ← (generate p b seed).outcome
        let signature ←
          (sign p b keys.secretKey message context
            randomizer).outcome
        (verify p b keys.publicKey message context
          signature).outcome) =
      (do
        let keys ← (generate p b seed).outcome
        let _ ←
          (sign p b keys.secretKey message context
            randomizer).outcome
        return ())
      ∧ (do
          let keys ← (KeyPair.ofSeed p b seed).outcome
          let signed ←
            (keys.secretKey.signEmbedded p b message
              context).outcome
          (keys.publicKey.openSigned p b signed
            context).outcome) =
        (do
          let keys ← (KeyPair.ofSeed p b seed).outcome
          let _ ←
            (keys.secretKey.signEmbedded p b message
              context).outcome
          return message) := by
  constructor
  · refine bind_congr_of_eq_ok fun keys hKeys => ?_
    rcases (keyPairOfSeed_yields p b seed).of_eq_ok hKeys with
      ⟨_, _, _, hGenerated⟩
    refine bind_congr_of_eq_ok fun signature hSign => ?_
    exact (verify_of_sign hGenerated hSign).2
  · refine bind_congr_of_eq_ok fun pair hPair => ?_
    rcases ofSeed_eq_ok hPair with ⟨keys, hKeys, rfl⟩
    rcases (keyPairOfSeed_yields p b seed).of_eq_ok hKeys with
      ⟨_, _, _, hGenerated⟩
    refine bind_congr_of_eq_ok fun signed hSigned => ?_
    rcases signEmbedded_eq_ok hSigned with ⟨signature, hSign, rfl⟩
    rcases verify_of_sign hGenerated hSign with ⟨hLength, hVerify⟩
    exact openSigned_append hLength hVerify

end Scheme

end LatticeSignature
