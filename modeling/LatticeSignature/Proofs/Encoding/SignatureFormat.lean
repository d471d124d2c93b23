import LatticeSignature.Proofs.Encoding.HintSection
import LatticeSignature.Proofs.Encoding.Signature

/-
  A signature is written in one way only: its byte string and
  the vectors that it holds determine each other.

  Main declarations:
    * `SignatureVectors`, `SignatureVectors.Valid`
    * `SignatureVectors.parts`, `SignatureParts.vectors`
    * `Encoding.packVectors`, `Encoding.unpackVectors`
    * `Encoding.signature_format_canonical`
-/

------------------------------------------------------------
-- Vectors of a Signature
------------------------------------------------------------

namespace LatticeSignature

/-
  A challenge seed, a response and a hint vector, whose hints
  are numbers.
-/
structure SignatureVectors (p : ParameterSet) where
  challenge : Bytes
  z : PolyVec p.columns
  h : PolyVec p.rows

variable {p : ParameterSet}

/-
  The challenge seed has its size, the responses lie above
  `-gamma1` and up to `gamma1`, and the hints are at most
  `omega` ones among zeros.
-/
structure SignatureVectors.Valid
    (v : SignatureVectors p) : Prop where
  challenge : v.challenge.length = p.challengeBytes
  z :
    ∀ (i : Fin p.columns) (k : Fin degree),
      -(p.gamma1 : Int) < v.z[i][k] ∧ v.z[i][k] ≤ p.gamma1
  binary : v.h.IsBinary
  weight : v.h.nonzeros ≤ p.omega

/- The parts that hold some vectors. -/
def SignatureVectors.parts
    (v : SignatureVectors p) : SignatureParts p :=
  ⟨v.challenge, v.z, Hints.ofVec v.h⟩

/- The vectors that some parts hold. -/
def SignatureParts.vectors
    (parts : SignatureParts p) : SignatureVectors p :=
  ⟨parts.challenge, parts.z, Hints.toVec parts.hints⟩

theorem SignatureParts.parts_vectors
    (parts : SignatureParts p) :
    parts.vectors.parts = parts := by
  unfold SignatureParts.vectors SignatureVectors.parts
  rw [Hints.ofVec_toVec]

theorem SignatureVectors.vectors_parts
    {v : SignatureVectors p}
    (hBinary : v.h.IsBinary) :
    v.parts.vectors = v := by
  unfold SignatureVectors.parts SignatureParts.vectors
  rw [Hints.toVec_ofVec hBinary]

/- Valid vectors are held by parts in range. -/
theorem SignatureVectors.Valid.inRange_parts
    {v : SignatureVectors p}
    (h : v.Valid) :
    v.parts.InRange where
  challenge := h.challenge
  z := h.z
  hints := by
    change (Hints.ofVec v.h).weight ≤ p.omega
    rw [Hints.weight_ofVec]
    exact h.weight

/- Parts in range hold valid vectors. -/
theorem SignatureParts.InRange.valid_vectors
    {parts : SignatureParts p}
    (h : parts.InRange) :
    parts.vectors.Valid where
  challenge := h.challenge
  z := h.z
  binary := Hints.isBinary_toVec parts.hints
  weight := by
    change (Hints.toVec parts.hints).nonzeros ≤ p.omega
    rw [← Hints.weight_ofVec, Hints.ofVec_toVec]
    exact h.hints

------------------------------------------------------------
-- Byte Strings of Vectors
------------------------------------------------------------

namespace Encoding

open Outcome

/- The bytes of a signature that holds some vectors. -/
def packVectors
    (p : ParameterSet)
    (v : SignatureVectors p) : Outcome SchemeError Bytes :=
  packSignature p v.parts

/- The vectors that a signature holds. -/
def unpackVectors
    (p : ParameterSet)
    (s : Bytes) : Outcome SchemeError (SignatureVectors p) :=
  SignatureParts.vectors <$> unpackSignature p s

/- Vectors are found again in the signature that they make. -/
theorem packVectors_returns
    {v : SignatureVectors p}
    (h : v.Valid) :
    Returns (packVectors p v) fun s =>
      s.length = p.signatureBytes
        ∧ unpackVectors p s = .ok v := by
  refine (packSignature_returns h.inRange_parts).mono ?_
  rintro s ⟨hLength, hUnpack⟩
  refine ⟨hLength, ?_⟩
  rw [unpackVectors, map_eq_ok_iff]
  exact ⟨v.parts, hUnpack, v.vectors_parts h.binary⟩

/- A signature is made again from the vectors found in it. -/
theorem unpackVectors_decides
    (p : ParameterSet)
    (s : Bytes) :
    Decides (unpackVectors p s) fun v =>
      v.Valid ∧ packVectors p v = .ok s := by
  refine (unpackSignature_decides p s).map ?_
  rintro parts ⟨hRange, hPack⟩
  refine ⟨hRange.valid_vectors, ?_⟩
  rw [packVectors, parts.parts_vectors]
  exact hPack

/-
  Valid vectors make one signature, which holds them, and no
  other byte string holds the same vectors.  A byte string that
  holds none is refused.
-/
theorem signature_format_canonical
    (p : ParameterSet) :
    (∀ (s : Bytes) (v : SignatureVectors p),
      unpackVectors p s = .ok v →
        packVectors p v = .ok s
          ∧ s.length = p.signatureBytes
          ∧ v.Valid)
      ∧ (∀ (s s' : Bytes) (v : SignatureVectors p),
        unpackVectors p s = .ok v →
          unpackVectors p s' = .ok v →
            s = s')
      ∧ (∀ v : SignatureVectors p,
        v.Valid →
          Returns (packVectors p v) fun s =>
            s.length = p.signatureBytes
              ∧ unpackVectors p s = .ok v)
      ∧ ∀ s : Bytes,
        Decides (unpackVectors p s) fun _ => True := by
  refine ⟨?_, ?_, fun v => packVectors_returns, ?_⟩
  · intro s v hUnpack
    rcases (unpackVectors_decides p s).of_eq_ok hUnpack with
      ⟨hValid, hPack⟩
    have hLength :=
      ((packVectors_returns hValid).of_eq_ok hPack).1
    exact ⟨hPack, hLength, hValid⟩
  · intro s s' v hUnpack hUnpack'
    have hPack :=
      ((unpackVectors_decides p s).of_eq_ok hUnpack).2
    have hPack' :=
      ((unpackVectors_decides p s').of_eq_ok hUnpack').2
    injection hPack.symm.trans hPack'
  · intro s
    exact (unpackVectors_decides p s).mono fun _ _ => trivial

end Encoding

end LatticeSignature
