import LatticeSignature.Proofs.Encoding.HintSection
import LatticeSignature.Proofs.Scheme.VerificationSafety

/-
  The hash that verification ends with depends on every hint:
  a hint that is toggled moves its coefficient to another
  bucket, and buckets are packed without loss.

  Main declarations:
    * `Rounding.Buckets.useHint_injective`
    * `Hints.apply_injective`
    * `Packing.bytes_injective`
    * `PolyVec.InBuckets`
    * `Encoding.encodeCommitment_injective`
    * `Scheme.restoredBytes`, `Scheme.hashInput`
    * `Scheme.hints_bound_by_hash`
-/

------------------------------------------------------------
-- Buckets and Hints
------------------------------------------------------------

namespace LatticeSignature

open Outcome

namespace Rounding

namespace Buckets

variable {ε : Type}

theorem count_eq
    (b : Buckets) :
    b.count = (Field.q - 1) / (2 * b.halfWidth) := by
  cases b <;> rfl

/- A hint that is set leads out of the bucket. -/
theorem useHint_true_ne
    (b : Buckets)
    (r : Residue) :
    b.useHint true r ≠ b.highBits r := by
  rcases b.inBucket_bits r with ⟨hLower, hUpper, _⟩
  rw [useHint, if_pos rfl]
  split
  · exact (next_bucket ⟨hLower, hUpper⟩).1
  · exact (previous_bucket ⟨hLower, hUpper⟩).1

/- The bucket that is reached tells the hint. -/
theorem useHint_injective
    (b : Buckets)
    (r : Residue) :
    Function.Injective fun hint => b.useHint hint r := by
  intro hint hint' hSame
  have hLeaves := b.useHint_true_ne r
  cases hint with
  | false =>
      cases hint' with
      | false => rfl
      | true => exact absurd hSame.symm hLeaves
  | true =>
      cases hint' with
      | false => exact absurd hSame hLeaves
      | true => rfl

/- A split leads to one of the buckets. -/
theorem split_high_range
    (b : Buckets)
    {a : Int}
    (hLower : 0 ≤ a)
    (hUpper : a < Field.q) :
    Returns (b.split a : Outcome ε Parts) fun parts =>
      0 ≤ parts.high ∧ parts.high < b.count := by
  have hIn := (inBucket_standardParts b hLower hUpper).1
  exact
    ⟨b.standardParts a, b.split_eq_ok hLower hUpper, hIn.1,
      hIn.2.1⟩

/- So does a split that a hint corrects. -/
theorem restore_range
    (b : Buckets)
    {a : Int}
    (hint : Bool)
    (hLower : 0 ≤ a)
    (hUpper : a < Field.q) :
    Returns (b.restore a hint : Outcome ε Int) fun high =>
      0 ≤ high ∧ high < b.count :=
  ⟨b.useHint hint a, b.restore_eq_ok hint hLower hUpper,
    b.useHint_range hint a⟩

end Buckets

end Rounding

namespace Hints

variable {ε : Type}
variable {n : Nat}

/- The vector that hints lead to tells the hints. -/
theorem apply_injective
    {b : Rounding.Buckets}
    {v w : PolyVec n}
    {h h' : Hints n}
    (hv : v.Canonical)
    (hOk : (h.apply b v : Outcome ε (PolyVec n)) = .ok w)
    (hOk' : (h'.apply b v : Outcome ε (PolyVec n)) = .ok w) :
    h = h' := by
  apply Entries.ext_rows
  intro i k
  have hUsed := (apply_returns b h hv).of_eq_ok hOk i k
  have hUsed' := (apply_returns b h' hv).of_eq_ok hOk' i k
  apply b.useHint_injective (v.elements i k)
  exact hUsed.symm.trans hUsed'

end Hints

------------------------------------------------------------
-- Packed Commitments
------------------------------------------------------------

/- Fields that hold their coefficients are packed without loss. -/
theorem Packing.bytes_injective
    {width : Nat}
    {r s : Poly}
    (hr : FitsWidth width r)
    (hs : FitsWidth width s)
    (hSame : bytes width r = bytes width s) :
    r = s := by
  rw [← ofBits_bytes hr, ← ofBits_bytes hs, hSame]

variable {p : ParameterSet}

/- All coefficients are numbers of buckets. -/
def PolyVec.InBuckets
    (w : PolyVec p.rows) : Prop :=
  ∀ (i : Fin p.rows) (k : Fin degree),
    0 ≤ w[i][k] ∧ w[i][k] < (Field.q - 1) / (2 * p.gamma2)

namespace Encoding

/- A polynomial is found again in a packed commitment. -/
theorem part_encodeCommitment
    (w : PolyVec p.rows)
    (i : Fin p.rows) :
    part (encodeCommitment p w)
        (i.val * packedBytes p.commitmentBits)
        (packedBytes p.commitmentBits) =
      Packing.bytes p.commitmentBits w[i] := by
  have hSizes :
      ∀ s ∈ w.toList.map (Packing.bytes p.commitmentBits),
        s.length = packedBytes p.commitmentBits := by
    intro s hs
    rcases List.mem_map.1 hs with ⟨r, _, rfl⟩
    exact Packing.length_bytes _ r
  have hPart :=
    part_flatten hSizes i.val (by simp)
  rw [encodeCommitment, List.flatMap, hPart]
  simp

/- Numbers of buckets are packed without loss. -/
theorem encodeCommitment_injective
    {u v : PolyVec p.rows}
    (hu : u.InBuckets)
    (hv : v.InBuckets)
    (hSame : encodeCommitment p u = encodeCommitment p v) :
    u = v := by
  have hCount := p.buckets.count_eq
  have hFits :
      ∀ {w : PolyVec p.rows}, w.InBuckets →
        ∀ i : Fin p.rows,
          Packing.FitsWidth p.commitmentBits w[i] := by
    intro w hw
    apply Guarded.fitsWidth_of_buckets
    rw [hCount]
    exact hw
  apply Vector.ext
  intro i hi
  have hPart := part_encodeCommitment u ⟨i, hi⟩
  rw [hSame, part_encodeCommitment v ⟨i, hi⟩] at hPart
  exact
    Packing.bytes_injective (hFits hu ⟨i, hi⟩) (hFits hv ⟨i, hi⟩)
      hPart.symm

end Encoding

------------------------------------------------------------
-- Sections before the Hints
------------------------------------------------------------

namespace Encoding

/- The number of bytes of a signature before its hint section. -/
def frontBytes
    (p : ParameterSet) : Nat :=
  p.challengeBytes + p.columns * p.responsePolyBytes

/- The challenge seed and the responses are read from the front. -/
theorem unpackSignature_front
    {s : Bytes}
    {parts : SignatureParts p}
    (hOk : unpackSignature p s = .ok parts) :
    parts.challenge = (s.take (frontBytes p)).take p.challengeBytes
      ∧ unpackVec p.columns p.responsePolyBytes (unpackResponse p)
          ((s.take (frontBytes p)).drop p.challengeBytes) =
        .ok parts.z := by
  rcases (bind_eq_ok_iff _ _ _).1 hOk with ⟨⟨⟩, hSize, hRest⟩
  rcases (bind_eq_ok_iff _ _ _).1 hRest with ⟨z, hz, hRest⟩
  rcases (bind_eq_ok_iff _ _ _).1 hRest with ⟨hints, _, hParts⟩
  cases hParts
  have hLength :=
    beq_iff_eq.1 ((require_eq_ok_iff _ _).1 hSize)
  unfold ParameterSet.signatureBytes at hLength
  have hFront :
      (s.take (frontBytes p)).drop p.challengeBytes =
        (s.drop p.challengeBytes).take
          (p.columns * p.responsePolyBytes) := by
    rw [frontBytes, List.drop_take, Nat.add_sub_cancel_left]
  constructor
  · rw [List.take_take, frontBytes,
      Nat.min_eq_left (Nat.le_add_right _ _)]
  · have hTake :
        ((s.drop p.challengeBytes).take
          (p.columns * p.responsePolyBytes)).length =
          p.columns * p.responsePolyBytes := by
      rw [List.length_take, List.length_drop]
      omega
    have hWhole :
        unpackVec p.columns p.responsePolyBytes (unpackResponse p)
            ((s.drop p.challengeBytes).take
                (p.columns * p.responsePolyBytes)
              ++ (s.drop p.challengeBytes).drop
                (p.columns * p.responsePolyBytes)) =
          _ :=
      unpackVec_append hTake _
    rw [List.take_append_drop] at hWhole
    rw [hFront, ← hWhole]
    exact hz

/- Signatures with one front agree up to their hints. -/
theorem unpackSignature_same_front
    {s s' : Bytes}
    {parts parts' : SignatureParts p}
    (hOk : unpackSignature p s = .ok parts)
    (hOk' : unpackSignature p s' = .ok parts')
    (hFront : s.take (frontBytes p) = s'.take (frontBytes p)) :
    parts.challenge = parts'.challenge ∧ parts.z = parts'.z := by
  rcases unpackSignature_front hOk with ⟨hSeed, hz⟩
  rcases unpackSignature_front hOk' with ⟨hSeed', hz'⟩
  rw [hFront] at hSeed hz
  rw [hz'] at hz
  injection hz with hz
  exact ⟨hSeed.trans hSeed'.symm, hz.symm⟩

end Encoding

------------------------------------------------------------
-- Hash Inputs
------------------------------------------------------------

namespace Scheme

/-
  The bytes of the buckets of some residues, corrected by a
  hint vector.
-/
def restoredBytes
    (p : ParameterSet)
    (w h : PolyVec p.rows) : Outcome SchemeError Bytes := do
  let restored ← (Hints.ofVec h).apply p.buckets w
  Encoding.commitmentBytes p restored

/- The bytes that verification hashes last. -/
def hashInput
    (p : ParameterSet)
    (b : Backend)
    (publicKey message context signature : Bytes) :
    Outcome SchemeError Bytes := do
  let key ← Encoding.unpackPublicKey p publicKey
  let parts ← Encoding.unpackSignature p signature
  let digest ←
    messageDigest (keyDigest publicKey).toList context message
  let w ← restoreCommitment b key parts
  let packed ← Encoding.commitmentBytes p w
  return digest ++ packed

/- Hints lead from least representatives to buckets. -/
theorem inBuckets_of_apply
    {v w : PolyVec p.rows}
    {h : Hints p.rows}
    (hv : v.Canonical)
    (hOk :
      (h.apply p.buckets v : Outcome SchemeError (PolyVec p.rows)) =
        .ok w) :
    w.InBuckets := by
  intro i k
  rw [(Hints.apply_returns p.buckets h hv).of_eq_ok hOk i k]
  have hRange :=
    p.buckets.useHint_range h[i][k] (v.elements i k)
  rw [p.buckets.count_eq] at hRange
  exact hRange

/- The bytes tell the hint vector. -/
theorem restoredBytes_returns
    {w : PolyVec p.rows}
    (hw : w.Canonical)
    (h : PolyVec p.rows) :
    Returns (restoredBytes p w h) fun s =>
      ∀ h' : PolyVec p.rows,
        h.IsBinary → h'.IsBinary →
          restoredBytes p w h' = .ok s → h = h' := by
  rcases Hints.apply_returns (ε := SchemeError) p.buckets
      (Hints.ofVec h) hw with
    ⟨restored, hApply, _⟩
  refine ⟨Encoding.encodeCommitment p restored, ?_, ?_⟩
  · rw [restoredBytes, hApply, ok_bind,
      Encoding.commitmentBytes_eq_ok]
  · intro h' hBinary hBinary' hSame
    rcases (bind_eq_ok_iff _ _ _).1 hSame with
      ⟨restored', hApply', hBytes⟩
    rw [Encoding.commitmentBytes_eq_ok] at hBytes
    injection hBytes with hBytes
    have hRestored :=
      Encoding.encodeCommitment_injective
        (inBuckets_of_apply hw hApply')
        (inBuckets_of_apply hw hApply) hBytes
    rw [hRestored] at hApply'
    rw [← Hints.toVec_ofVec hBinary,
      Hints.apply_injective hw hApply hApply',
      Hints.toVec_ofVec hBinary']

/- A hash input is a digest and a packed commitment. -/
theorem hashInput_eq_ok_iff
    {b : Backend}
    {publicKey message context signature input : Bytes} :
    hashInput p b publicKey message context signature = .ok input
      ↔ ∃ key parts digest w,
        Encoding.unpackPublicKey p publicKey = .ok key
          ∧ Encoding.unpackSignature p signature = .ok parts
          ∧ messageDigest (keyDigest publicKey).toList context
              message = .ok digest
          ∧ restoreCommitment b key parts = .ok w
          ∧ digest ++ Encoding.encodeCommitment p w = input := by
  simp only [hashInput, bind_eq_ok_iff,
    Encoding.commitmentBytes_eq_ok, ok_bind]
  constructor
  · rintro ⟨key, hKey, parts, hParts, digest, hDigest, w, hw,
      hInput⟩
    exact ⟨key, parts, digest, w, hKey, hParts, hDigest, hw,
      Except.ok.inj hInput⟩
  · rintro ⟨key, parts, digest, w, hKey, hParts, hDigest, hw, rfl⟩
    exact ⟨key, hKey, parts, hParts, digest, hDigest, w, hw, rfl⟩

/- The commitment in a hash input is restored from buckets. -/
theorem restoreCommitment_parts
    {b : Backend}
    {publicKey signature : Bytes}
    {key : PublicParts p}
    {parts : SignatureParts p}
    {w : PolyVec p.rows}
    (hKey : Encoding.unpackPublicKey p publicKey = .ok key)
    (hParts : Encoding.unpackSignature p signature = .ok parts)
    (hw : restoreCommitment b key parts = .ok w) :
    ∃ v : PolyVec p.rows,
      difference b key parts = .ok v
        ∧ v.Canonical
        ∧ (parts.hints.apply p.buckets v
            : Outcome SchemeError (PolyVec p.rows)) = .ok w := by
  rcases (bind_eq_ok_iff _ _ _).1 hw with ⟨v, hv, hApply⟩
  have hKeyRange := (Encoding.unpackPublicKey_eq_ok_iff.1 hKey).1
  have hPartsRange :=
    (Encoding.unpackSignature_eq_ok_iff.1 hParts).1
  rcases (difference_ends b hKeyRange
      (within_response hPartsRange.z)).of_eq_ok hv with
    ⟨_, _, _, _, hCanonical, _⟩
  exact ⟨v, hv, hCanonical, hApply⟩

/- The hints do not enter the difference. -/
theorem difference_congr
    (b : Backend)
    (key : PublicParts p)
    {parts parts' : SignatureParts p}
    (hChallenge : parts.challenge = parts'.challenge)
    (hz : parts.z = parts'.z) :
    difference b key parts = difference b key parts' := by
  unfold difference
  rw [hChallenge, hz]

/- Signatures with one front and one hash input are the same. -/
theorem eq_of_hashInput_eq
    {b : Backend}
    {publicKey message context s s' input : Bytes}
    (hFront :
      s.take (Encoding.frontBytes p) =
        s'.take (Encoding.frontBytes p))
    (hOk : hashInput p b publicKey message context s = .ok input)
    (hOk' :
      hashInput p b publicKey message context s' = .ok input) :
    s = s' := by
  rcases hashInput_eq_ok_iff.1 hOk with
    ⟨key, parts, digest, w, hKey, hParts, hDigest, hw, hInput⟩
  rcases hashInput_eq_ok_iff.1 hOk' with
    ⟨key', parts', digest', w', hKey', hParts', hDigest', hw',
      hInput'⟩
  have hSameKey := Except.ok.inj (hKey.symm.trans hKey')
  have hSameDigest := Except.ok.inj (hDigest.symm.trans hDigest')
  subst hSameKey
  subst hSameDigest
  rcases restoreCommitment_parts hKey hParts hw with
    ⟨v, hv, hCanonical, hApply⟩
  rcases restoreCommitment_parts hKey hParts' hw' with
    ⟨v', hv', _, hApply'⟩
  rcases Encoding.unpackSignature_same_front hParts hParts'
      hFront with
    ⟨hChallenge, hz⟩
  have hSame : difference b key parts = .ok v' :=
    (difference_congr b key hChallenge hz).trans hv'
  have hSameDifference := Except.ok.inj (hv.symm.trans hSame)
  subst hSameDifference
  -- One input holds one commitment, which tells the hints.
  have hCommitment : w = w' := by
    apply Encoding.encodeCommitment_injective
    · exact inBuckets_of_apply hCanonical hApply
    · exact inBuckets_of_apply hCanonical hApply'
    · exact List.append_cancel_left (hInput.trans hInput'.symm)
  subst hCommitment
  have hHints := Hints.apply_injective hCanonical hApply hApply'
  have hAll : parts = parts' := by
    cases parts
    cases parts'
    cases hChallenge
    cases hz
    cases hHints
    rfl
  subst hAll
  have hPack := (Encoding.unpackSignature_eq_ok_iff.1 hParts).2
  have hPack' := (Encoding.unpackSignature_eq_ok_iff.1 hParts').2
  exact Except.ok.inj (hPack.symm.trans hPack')

/-
  A check accepts a short response whose challenge seed is the
  hash of the input.
-/
theorem check_eq_true_iff
    {b : Backend}
    {publicKey message context signature : Bytes} :
    check p b publicKey message context signature = .ok true
      ↔ ∃ parts input,
        Encoding.unpackSignature p signature = .ok parts
          ∧ parts.z.exceedsNorm (responseBound p) = false
          ∧ hashInput p b publicKey message context signature =
            .ok input
          ∧ parts.challenge =
            Keccak.shake256 input p.challengeBytes := by
  constructor
  · intro hCheck
    rcases (bind_eq_ok_iff _ _ _).1 hCheck with
      ⟨key, hKey, hCheck⟩
    rcases (bind_eq_ok_iff _ _ _).1 hCheck with
      ⟨parts, hParts, hCheck⟩
    split at hCheck
    · cases hCheck
    rename_i hNorm
    rcases (bind_eq_ok_iff _ _ _).1 hCheck with
      ⟨digest, hDigest, hCheck⟩
    rcases (bind_eq_ok_iff _ _ _).1 hCheck with ⟨w, hw, hCheck⟩
    rw [challengeSeed_eq_ok, ok_bind] at hCheck
    refine ⟨parts, _, hParts, Bool.eq_false_iff.2 hNorm,
      hashInput_eq_ok_iff.2
        ⟨key, parts, digest, w, hKey, hParts, hDigest, hw, rfl⟩,
      ?_⟩
    exact beq_iff_eq.1 (Except.ok.inj hCheck)
  · rintro ⟨parts, input, hParts, hNorm, hInput, hSeed⟩
    rcases hashInput_eq_ok_iff.1 hInput with
      ⟨key, parts', digest, w, hKey, hParts', hDigest, hw, rfl⟩
    have hSameParts := Except.ok.inj (hParts.symm.trans hParts')
    subst hSameParts
    rw [check, hKey, ok_bind, hParts, ok_bind,
      if_neg (Bool.eq_false_iff.1 hNorm), hDigest, ok_bind, hw,
      ok_bind, challengeSeed_eq_ok, ok_bind, hSeed]
    exact congrArg Except.ok (beq_self_eq_true _)

theorem verify_eq_ok_iff_check
    {b : Backend}
    {publicKey message context signature : Bytes} :
    (verify p b publicKey message context signature).outcome =
        .ok ()
      ↔ check p b publicKey message context signature =
        .ok true := by
  dsimp only [verify]
  split <;> simp_all [fail]

------------------------------------------------------------
-- Binding
------------------------------------------------------------

/-
  Hint vectors that differ lead to packed commitments that
  differ, because splitting and using hints lead to numbers of
  buckets, which are packed without loss.  Verification hashes
  such a commitment last, so signatures that differ in their
  hint sections alone never have the same hash input.
-/
theorem hints_bound_by_hash
    (p : ParameterSet) :
    (∀ w h h' : PolyVec p.rows,
      w.Canonical → h.IsBinary → h'.IsBinary → h ≠ h' →
        ∃ s s',
          restoredBytes p w h = .ok s
            ∧ restoredBytes p w h' = .ok s'
            ∧ s ≠ s')
      ∧ (∀ a : Int,
        0 ≤ a → a < Field.q →
          (Returns
            (p.buckets.split a : Outcome SchemeError _)
            fun parts =>
              0 ≤ parts.high
                ∧ parts.high < (Field.q - 1) / (2 * p.gamma2))
            ∧ ∀ hint : Bool,
              Returns
                (p.buckets.restore a hint
                  : Outcome SchemeError Int)
                fun high =>
                  0 ≤ high
                    ∧ high < (Field.q - 1) / (2 * p.gamma2))
      ∧ (∀ u v : PolyVec p.rows,
        u.InBuckets → v.InBuckets →
          Encoding.commitmentBytes p u =
            Encoding.commitmentBytes p v →
          u = v)
      ∧ ∀ (b : Backend) (publicKey message context : Bytes),
        (∀ s : Bytes,
          (verify p b publicKey message context s).outcome = .ok ()
            ↔ ∃ parts input,
              Encoding.unpackSignature p s = .ok parts
                ∧ parts.z.exceedsNorm (responseBound p) = false
                ∧ hashInput p b publicKey message context s =
                  .ok input
                ∧ parts.challenge =
                  Keccak.shake256 input p.challengeBytes)
          ∧ ∀ s s' input : Bytes,
            s.take (Encoding.frontBytes p) =
                s'.take (Encoding.frontBytes p) →
              s ≠ s' →
              hashInput p b publicKey message context s =
                .ok input →
              hashInput p b publicKey message context s' ≠
                .ok input := by
  have hCount := p.buckets.count_eq
  refine ⟨?_, ?_, ?_, ?_⟩
  · intro w h h' hw hBinary hBinary' hNe
    rcases restoredBytes_returns hw h with ⟨s, hOk, hTells⟩
    rcases restoredBytes_returns hw h' with ⟨s', hOk', _⟩
    refine ⟨s, s', hOk, hOk', ?_⟩
    rintro rfl
    exact hNe (hTells h' hBinary hBinary' hOk')
  · intro a hLower hUpper
    rw [ParameterSet.gamma2, ← hCount]
    exact
      ⟨p.buckets.split_high_range hLower hUpper,
        fun hint => p.buckets.restore_range hint hLower hUpper⟩
  · intro u v hu hv hSame
    rw [Encoding.commitmentBytes_eq_ok,
      Encoding.commitmentBytes_eq_ok] at hSame
    exact
      Encoding.encodeCommitment_injective hu hv
        (Except.ok.inj hSame)
  · intro b publicKey message context
    constructor
    · intro s
      rw [verify_eq_ok_iff_check, check_eq_true_iff]
    · intro s s' input hFront hNe hOk hOk'
      exact hNe (eq_of_hashInput_eq hFront hOk hOk')

end Scheme

end LatticeSignature
