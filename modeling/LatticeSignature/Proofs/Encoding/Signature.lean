import LatticeSignature.Encoding.Signature
import LatticeSignature.Proofs.Encoding.Coefficients
import LatticeSignature.Proofs.Encoding.Hints

/-
  The byte form of signatures.  Signatures whose parts are in
  range are packed and found again, and a byte string that is
  unpacked is the packed form of its parts.

  Main declarations:
    * `SignatureParts.InRange`
    * `Encoding.packSignature_returns`
    * `Encoding.unpackSignature_decides`
    * `Encoding.unpackSignature_eq_ok_iff`
-/

------------------------------------------------------------
-- Signatures
------------------------------------------------------------

namespace LatticeSignature

/-
  The challenge seed has its size, the responses are in their
  range and the hints are not too many.
-/
structure SignatureParts.InRange
    {p : ParameterSet}
    (parts : SignatureParts p) : Prop where
  challenge : parts.challenge.length = p.challengeBytes
  z :
    ∀ i : Fin p.columns,
      Encoding.HalfOpen (-p.gamma1) p.gamma1 parts.z[i]
  hints : parts.hints.weight ≤ p.omega

namespace Encoding

open Outcome

/- What is packed in its range is unpacked again. -/
theorem packSignature_returns
    {p : ParameterSet}
    {parts : SignatureParts p}
    (h : parts.InRange) :
    Returns (packSignature p parts) fun s =>
      s.length = p.signatureBytes
        ∧ unpackSignature p s = .ok parts := by
  rcases (isCodec_response p).packVec_returns h.z with
    ⟨z, hPack, hSize, hUnpack⟩
  have hSeed :
      (parts.challenge.length == p.challengeBytes) = true :=
    beq_iff_eq.2 h.challenge
  have hHints :=
    (packHints_eq_ok_iff p parts.hints _).2 ⟨h.hints, rfl⟩
  have hHintSize := length_encodeHints h.hints
  have hLength :
      (parts.challenge
        ++ (z ++ encodeHints p parts.hints)).length =
        p.signatureBytes := by
    rw [List.length_append, List.length_append, h.challenge,
      hSize, hHintSize, ParameterSet.signatureBytes]
    omega
  have hCheck :
      ((parts.challenge
        ++ (z ++ encodeHints p parts.hints)).length ==
          p.signatureBytes) = true :=
    beq_iff_eq.2 hLength
  refine ⟨parts.challenge ++ (z ++ encodeHints p parts.hints),
    ?_, hLength, ?_⟩
  · rw [packSignature, require_bind hSeed, hPack, hHints]
    exact congrArg Except.ok (List.append_assoc _ _ _)
  · rw [unpackSignature, require_bind hCheck,
      List.drop_left' h.challenge, List.take_left' h.challenge]
    dsimp only
    rw [List.drop_left' hSize, unpackVec_append hSize, hUnpack,
      unpackHints_encodeHints h.hints]
    rfl

/- What is accepted is the packed form of its parts. -/
theorem unpackSignature_decides
    (p : ParameterSet)
    (s : Bytes) :
    Decides (unpackSignature p s) fun parts =>
      parts.InRange ∧ packSignature p parts = .ok s := by
  have hSections : p.signatureBytes =
      p.challengeBytes
        + (p.columns * p.responsePolyBytes + p.hintBytes) := by
    unfold ParameterSet.signatureBytes
    omega
  refine (require_decides _ _).bind ?_
  rintro ⟨⟩ hCheck
  have hSize := beq_iff_eq.1 hCheck
  have hRest :
      (s.drop p.challengeBytes).length =
        p.columns * p.responsePolyBytes + p.hintBytes := by
    rw [List.length_drop]
    omega
  have hSeed :
      (s.take p.challengeBytes).length = p.challengeBytes := by
    rw [List.length_take]
    omega
  obtain ⟨rest, hSplit⟩ :
      ∃ rest, s.drop p.challengeBytes = rest :=
    ⟨_, rfl⟩
  dsimp only
  rw [hSplit] at hRest ⊢
  have hHintSize :
      (rest.drop (p.columns * p.responsePolyBytes)).length =
        p.hintBytes := by
    rw [List.length_drop]
    omega
  refine ((isCodec_response p).unpackVec_take_decides
    (by omega)).bind ?_
  rintro z ⟨hz, hPack⟩
  refine (unpackHints_decides hHintSize).bind ?_
  rintro h ⟨hWeight, hEncode⟩
  refine Or.inl ⟨_, rfl, ⟨hSeed, hz, hWeight⟩, ?_⟩
  have hHints :=
    (packHints_eq_ok_iff p h _).2 ⟨hWeight, hEncode.symm⟩
  rw [packSignature, require_bind (beq_iff_eq.2 hSeed), hPack,
    hHints]
  refine congrArg Except.ok ?_
  rw [List.append_assoc, List.take_append_drop, ← hSplit,
    List.take_append_drop]

/- A byte string is the signature of its parts only. -/
theorem unpackSignature_eq_ok_iff
    {p : ParameterSet}
    {s : Bytes}
    {parts : SignatureParts p} :
    unpackSignature p s = .ok parts
      ↔ parts.InRange ∧ packSignature p parts = .ok s := by
  constructor
  · exact (unpackSignature_decides p s).of_eq_ok
  · rintro ⟨hRange, hPack⟩
    exact ((packSignature_returns hRange).of_eq_ok hPack).2

end Encoding

end LatticeSignature
