import LatticeSignature.Encoding.Coefficients
import LatticeSignature.Proofs.Encoding.Packing
import LatticeSignature.Proofs.Encoding.Sections
import LatticeSignature.Proofs.ParameterSet
import LatticeSignature.Proofs.Ring.Entries

/-
  The packed forms of polynomials are codecs, each one for
  the coefficients that it is meant for.

  Main declarations:
    * `Encoding.HalfOpen`
    * `Encoding.exists_distances`
    * `Encoding.unpackPlain_returns`
    * `Encoding.unpackOffset_eq_ok`
    * `Encoding.unpackOffset_returns`
    * `Encoding.isCodec_offset`
    * `Encoding.isCodec_highPart`, `Encoding.isCodec_lowPart`
    * `Encoding.isCodec_secret`, `Encoding.isCodec_response`
    * `Encoding.encodeCommitment`
    * `Encoding.commitmentBytes_eq_ok`
-/

------------------------------------------------------------
-- Offset Fields
------------------------------------------------------------

namespace LatticeSignature

namespace Encoding

open Outcome Packing

/- The coefficients lie above one bound, up to another one. -/
def HalfOpen
    (lower upper : Int)
    (p : Poly) : Prop :=
  ∀ i : Fin degree, lower < p[i] ∧ p[i] ≤ upper

/- Every string of the right size holds fields. -/
theorem unpackPlain_returns
    {width : Nat}
    {s : Bytes}
    (hWidth : IsWidth width)
    (hSize : s.length = packedBytes width) :
    Returns (SchemeError.lift (unpack width s)) fun p =>
      FitsWidth width p
        ∧ SchemeError.lift (pack width (packedBytes width) p) =
          .ok s := by
  refine ⟨ofBits width (Bits.ofBytes s), ?_,
    fitsWidth_ofBits width _, ?_⟩
  · rw [unpack_eq_ok hWidth hSize]
    rfl
  · rw [pack_eq_ok hWidth, bytes_ofBits hSize]
    rfl

/- Fields without an offset. -/
theorem isCodec_plain
    {width : Nat}
    (hWidth : IsWidth width) :
    IsCodec (packedBytes width) (FitsWidth width)
      (fun p =>
        SchemeError.lift (pack width (packedBytes width) p))
      (fun s => SchemeError.lift (unpack width s)) where
  pack_returns := by
    intro p hp
    refine ⟨Packing.bytes width p, ?_,
      length_bytes width p, ?_⟩
    · rw [pack_eq_ok hWidth]
      rfl
    · rw [unpack_eq_ok hWidth (length_bytes width p),
        ofBits_bytes hp]
      rfl
  unpack_decides := fun hSize =>
    (unpackPlain_returns hWidth hSize).ends

/- Differences below an offset that fits a word. -/
theorem mapEntries_sub32_eq_ok
    {ε : Type}
    {offset width : Nat}
    {p r : Poly}
    (hWidth : IsWidth width)
    (hOffset : offset ≤ 2 ^ 24)
    (hr : FitsWidth width r)
    (hSum : ∀ i : Fin degree, p[i] + r[i] = offset) :
    (mapEntries (Word.sub32 offset) p : Outcome ε Poly) = .ok r
      ∧ (mapEntries (Word.sub32 offset) r : Outcome ε Poly) =
        .ok p := by
  have hPow : (2 : Int) ^ width ≤ 2 ^ 24 := by
    exact_mod_cast Nat.pow_le_pow_right (by decide) hWidth.2
  have hOffset' : (offset : Int) ≤ 2 ^ 24 := by
    exact_mod_cast hOffset
  constructor <;> rw [mapEntries_eq_ok_iff] <;> intro i <;>
  · have hi := hr i
    have hs := hSum i
    rw [Word.sub32_eq_ok (by unfold Word.Within; omega)]
    refine congrArg Except.ok ?_
    omega

/- The distances below an offset fit into their fields. -/
theorem exists_distances
    {ε : Type}
    {offset width : Nat}
    {p : Poly}
    (hWidth : IsWidth width)
    (hOffset : offset ≤ 2 ^ 24)
    (hp : HalfOpen ((offset : Int) - 2 ^ width) offset p) :
    ∃ r : Poly,
      FitsWidth width r
        ∧ (mapEntries (Word.sub32 offset) p : Outcome ε Poly) =
          .ok r
        ∧ (mapEntries (Word.sub32 offset) r : Outcome ε Poly) =
          .ok p := by
  let r : Poly := Vector.ofFn fun i => (offset : Int) - p[i]
  have hEntry : ∀ i : Fin degree, r[i] = offset - p[i] := by
    intro i
    simp [r]
  have hr : FitsWidth width r := by
    intro i
    have hi := hp i
    rw [hEntry i]
    omega
  refine ⟨r, hr, mapEntries_sub32_eq_ok hWidth hOffset hr ?_⟩
  intro i
  rw [hEntry i]
  omega

/- The coefficients are the distances of the fields. -/
theorem unpackOffset_eq_ok
    {offset width : Nat}
    {s : Bytes}
    (hWidth : IsWidth width)
    (hOffset : offset ≤ 2 ^ 24)
    (hSize : s.length = packedBytes width) :
    unpackOffset offset width s =
      .ok ((ofBits width (Bits.ofBytes s)).map fun field =>
        (offset : Int) - field) := by
  have hMaps :=
    mapEntries_sub32_eq_ok (ε := SchemeError)
      (p := (ofBits width (Bits.ofBytes s)).map fun field =>
        (offset : Int) - field)
      hWidth hOffset (fitsWidth_ofBits width (Bits.ofBytes s))
      fun i => by simp
  rw [unpackOffset, unpack_eq_ok hWidth hSize]
  exact hMaps.2

/- Every string of the right size holds distances. -/
theorem unpackOffset_returns
    {offset width : Nat}
    {s : Bytes}
    (hWidth : IsWidth width)
    (hOffset : offset ≤ 2 ^ 24)
    (hSize : s.length = packedBytes width) :
    Returns (unpackOffset offset width s) fun p =>
      HalfOpen ((offset : Int) - 2 ^ width) offset p
        ∧ packOffset offset width (packedBytes width) p =
          .ok s := by
  let r := ofBits width (Bits.ofBytes s)
  let p : Poly := r.map fun field => (offset : Int) - field
  have hr : FitsWidth width r := fitsWidth_ofBits width _
  have hEntry : ∀ i : Fin degree, p[i] = offset - r[i] := by
    intro i
    simp [p]
  refine ⟨p, unpackOffset_eq_ok hWidth hOffset hSize, ?_, ?_⟩
  · intro i
    have hi := hr i
    rw [hEntry i]
    omega
  · have hMaps :=
      mapEntries_sub32_eq_ok (ε := SchemeError) (p := p)
        hWidth hOffset hr fun i => by
          rw [hEntry i]
          omega
    rw [packOffset, hMaps.1]
    change SchemeError.lift (pack width (packedBytes width) r) = _
    rw [pack_eq_ok hWidth, bytes_ofBits hSize]
    rfl

/- Fields that hold distances below an offset. -/
theorem isCodec_offset
    {offset width : Nat}
    (hWidth : IsWidth width)
    (hOffset : offset ≤ 2 ^ 24) :
    IsCodec (packedBytes width)
      (HalfOpen ((offset : Int) - 2 ^ width) offset)
      (packOffset offset width (packedBytes width))
      (unpackOffset offset width) where
  pack_returns := by
    intro p hp
    rcases exists_distances (ε := SchemeError) hWidth hOffset
        hp with
      ⟨r, hr, hOut, hIn⟩
    rcases (isCodec_plain hWidth).pack_returns hr with
      ⟨s, hPack, hSize, hUnpack⟩
    refine ⟨s, ?_, hSize, ?_⟩
    · rw [packOffset, hOut]
      exact hPack
    · rw [unpackOffset, hUnpack]
      exact hIn
  unpack_decides := fun hSize =>
    (unpackOffset_returns hWidth hOffset hSize).ends

------------------------------------------------------------
-- The Packed Forms
------------------------------------------------------------

/- High parts are packed in 10 bits. -/
theorem isWidth_highPartBits :
    IsWidth highPartBits :=
  ⟨by decide, by decide⟩

/- High parts are packed as they are. -/
theorem isCodec_highPart :
    IsCodec (packedBytes highPartBits) (FitsWidth highPartBits)
      (packHighPart (packedBytes highPartBits))
      unpackHighPart :=
  isCodec_plain isWidth_highPartBits

/- High parts have room for the bits that were dropped. -/
theorem within_shifted
    {p : Poly}
    (h : FitsWidth highPartBits p)
    (k : Fin degree) :
    Word.Within (Field.q - 1)
      (p[k] * 2 ^ Rounding.droppedBits) := by
  have hWidth : (2 : Int) ^ highPartBits = 1024 := by decide
  have hPower : (2 : Int) ^ Rounding.droppedBits = 8192 := by
    decide
  have hk := h k
  rw [hWidth] at hk
  rw [hPower]
  unfold Word.Within Field.q
  omega

/- Low parts are packed in 13 bits. -/
theorem isWidth_droppedBits :
    IsWidth Rounding.droppedBits :=
  ⟨by decide, by decide⟩

/- Low parts are packed as distances below 4096. -/
theorem isCodec_lowPart :
    IsCodec (packedBytes Rounding.droppedBits)
      (HalfOpen (-4096) 4096)
      (packLowPart (packedBytes Rounding.droppedBits))
      unpackLowPart :=
  @isCodec_offset 4096 Rounding.droppedBits
    isWidth_droppedBits (by decide)

/- Responses are packed in 18 or 20 bits. -/
theorem isWidth_responseBits
    (p : ParameterSet) :
    IsWidth p.responseBits := by
  cases p <;> exact ⟨by decide, by decide⟩

/- A response has twice as many values as its offset says. -/
theorem gamma1_sub_two_pow
    (p : ParameterSet) :
    (p.gamma1 : Int) - 2 ^ p.responseBits = -p.gamma1 := by
  cases p <;> decide

/- A distance from `gamma1` is far below the word size. -/
theorem gamma1_le_two_pow
    (p : ParameterSet) :
    p.gamma1 ≤ 2 ^ 24 := by
  have hGamma := p.gamma1_le
  omega

/- Responses are packed as distances below `gamma1`. -/
theorem isCodec_response
    (p : ParameterSet) :
    IsCodec p.responsePolyBytes
      (HalfOpen (-p.gamma1) p.gamma1)
      (packResponse p p.responsePolyBytes)
      (unpackResponse p) := by
  rw [← gamma1_sub_two_pow]
  exact isCodec_offset (isWidth_responseBits p)
    (gamma1_le_two_pow p)

/- Secrets are packed in three or four bits. -/
theorem isWidth_secretBits
    (p : ParameterSet) :
    IsWidth p.secretBits := by
  cases p <;> exact ⟨by decide, by decide⟩

/- Secret coefficients fit, but not all that fit are secret. -/
theorem eta_sub_two_pow_lt
    (p : ParameterSet) :
    (p.eta : Int) - 2 ^ p.secretBits < -p.eta := by
  cases p <;> decide

/- Secret coefficients are in the range of their fields. -/
theorem halfOpen_secret
    (p : ParameterSet)
    {s : Poly}
    (hs : Entries.Within p.eta s) :
    HalfOpen ((p.eta : Int) - 2 ^ p.secretBits) p.eta s := by
  have hRange := eta_sub_two_pow_lt p
  intro i
  have hi := hs i
  unfold Word.Within at hi
  omega

/- A distance from `eta` is far below the word size. -/
theorem eta_le_two_pow
    (p : ParameterSet) :
    p.eta ≤ 2 ^ 24 := by
  have hEta := p.eta_le
  omega

/- No coefficient is found below a limit. -/
theorem any_lt_eq_false_iff
    {lower : Int}
    {s : Poly} :
    (s.any fun c => c < lower) = false
      ↔ ∀ i : Fin degree, lower ≤ s[i] := by
  rw [Vector.any_eq_false]
  simp only [decide_eq_true_eq, not_lt]
  exact ⟨fun h i => h i.val i.isLt, fun h i hi => h ⟨i, hi⟩⟩

/-
  Not all fields of this width are distances of secrets, so
  some strings are refused.
-/
theorem isCodec_secret
    (p : ParameterSet) :
    IsCodec p.secretPolyBytes
      (Entries.Within p.eta)
      (packSecret p p.secretPolyBytes)
      (unpackSecret p) where
  pack_returns := by
    intro s hs
    rcases
      (isCodec_offset (isWidth_secretBits p)
        (eta_le_two_pow p)).pack_returns
        (halfOpen_secret p hs) with
      ⟨bytes, hPack, hSize, hUnpack⟩
    have hAccepted :
        (s.any fun c => c < -(p.eta : Int)) = false :=
      any_lt_eq_false_iff.2 fun i => (hs i).1
    refine ⟨bytes, hPack, hSize, ?_⟩
    rw [unpackSecret, hUnpack]
    change (if _ then _ else _) = _
    rw [hAccepted]
    rfl
  unpack_decides := by
    intro bytes hSize
    have hOffsets :=
      (isCodec_offset (isWidth_secretBits p)
        (eta_le_two_pow p)).unpack_decides hSize
    refine hOffsets.bind ?_
    rintro s ⟨hHalfOpen, hPack⟩
    cases hBelow : s.any fun c => c < -(p.eta : Int) with
    | true => exact Or.inr ⟨_, rfl, _, rfl⟩
    | false =>
        refine Or.inl ⟨s, rfl, ?_, hPack⟩
        intro i
        exact ⟨any_lt_eq_false_iff.1 hBelow i, (hHalfOpen i).2⟩

/- Commitments are packed in four or six bits. -/
theorem isWidth_commitmentBits
    (p : ParameterSet) :
    IsWidth p.commitmentBits := by
  cases p <;> exact ⟨by decide, by decide⟩

/- The bytes of a commitment, without any check. -/
def encodeCommitment
    (p : ParameterSet)
    (w : PolyVec p.rows) : Bytes :=
  w.toList.flatMap (Packing.bytes p.commitmentBits)

/- No width is refused, so a commitment always has its bytes. -/
theorem commitmentBytes_eq_ok
    (p : ParameterSet)
    (w : PolyVec p.rows) :
    commitmentBytes p w = .ok (encodeCommitment p w) := by
  have hWidth := isWidth_commitmentBits p
  have hPacked :
      mapEntries (packCommitment p p.commitmentPolyBytes) w =
        .ok (w.map (Packing.bytes p.commitmentBits)) := by
    rw [mapEntries_eq_ok_iff]
    intro i
    rw [packCommitment, ParameterSet.commitmentPolyBytes,
      pack_eq_ok hWidth, SchemeError.lift, mapError_eq_ok_iff]
    simp
  rw [commitmentBytes, hPacked]
  refine congrArg Except.ok ?_
  rw [encodeCommitment, List.flatMap, Vector.toList_map]

end Encoding

end LatticeSignature
