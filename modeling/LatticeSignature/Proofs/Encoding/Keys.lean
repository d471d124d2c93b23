import LatticeSignature.Encoding.Keys
import LatticeSignature.Proofs.Encoding.Coefficients

/-
  The byte forms of keys.  Keys whose parts are in range are
  packed and found again, and a byte string that is unpacked
  is the packed form of its parts.

  Main declarations:
    * `PublicParts.InRange`, `SecretParts.InRange`
    * `Encoding.packPublicKey_returns`
    * `Encoding.unpackPublicKey_decides`
    * `Encoding.packSecretKey_returns`
    * `Encoding.unpackSecretKey_decides`
    * `Encoding.unpackPublicKey_eq_fail`
    * `Encoding.unpackSecretKey_eq_fail`
-/

------------------------------------------------------------
-- Public Keys
------------------------------------------------------------

namespace LatticeSignature

/- The high parts have their width. -/
def PublicParts.InRange
    {p : ParameterSet}
    (key : PublicParts p) : Prop :=
  ∀ i : Fin p.rows, Packing.FitsWidth highPartBits key.t1[i]

namespace Encoding

open Outcome

/- A packed public key is unpacked again. -/
theorem packPublicKey_returns
    {p : ParameterSet}
    {key : PublicParts p}
    (h : key.InRange) :
    Returns (packPublicKey p key) fun s =>
      s.length = p.publicKeyBytes
        ∧ unpackPublicKey p s = .ok key := by
  rcases isCodec_highPart.packVec_returns h with
    ⟨t1, hPack, hSize, hUnpack⟩
  have hLength :
      (key.rho.toList ++ t1).length = p.publicKeyBytes := by
    rw [List.length_append, hSize, Vector.length_toList]
    rfl
  refine ⟨key.rho.toList ++ t1, ?_, hLength, ?_⟩
  · rw [packPublicKey, hPack]
    rfl
  · have hDrop : (key.rho.toList ++ t1).drop 32 = t1 :=
      List.drop_left' (Vector.length_toList)
    have hRho :
        part (key.rho.toList ++ t1) 0 32 = key.rho.toList :=
      part_middle (a := []) rfl Vector.length_toList
    rw [unpackPublicKey, dif_pos hLength]
    dsimp only
    rw [hDrop, hUnpack, block_eq _ hRho]
    rfl

/- A string of another size is refused as a public key. -/
theorem unpackPublicKey_eq_fail
    {p : ParameterSet}
    {s : Bytes}
    (hSize : s.length ≠ p.publicKeyBytes) :
    unpackPublicKey p s =
      Outcome.fail
        (.invalidKeySize p.publicKeyBytes s.length) := by
  rw [unpackPublicKey, dif_neg hSize]

/- An accepted public key is the packed form of its parts. -/
theorem unpackPublicKey_decides
    (p : ParameterSet)
    (s : Bytes) :
    Decides (unpackPublicKey p s) fun key =>
      key.InRange ∧ packPublicKey p key = .ok s := by
  unfold unpackPublicKey
  split
  · rename_i hSize
    have hPublic :
        p.publicKeyBytes =
          32 + p.rows * packedBytes highPartBits := rfl
    have hRest :
        (s.drop 32).length =
          p.rows * packedBytes highPartBits := by
      rw [List.length_drop]
      omega
    refine (isCodec_highPart.unpackVec_decides hRest).bind ?_
    rintro t1 ⟨hRange, hPack⟩
    refine Or.inl ⟨_, rfl, hRange, ?_⟩
    rw [packPublicKey, hPack]
    refine congrArg Except.ok ?_
    exact part_append_drop s 0 32
  · exact Or.inr ⟨_, rfl, _, rfl⟩

/- A byte string is the public key of its parts only. -/
theorem unpackPublicKey_eq_ok_iff
    {p : ParameterSet}
    {s : Bytes}
    {key : PublicParts p} :
    unpackPublicKey p s = .ok key
      ↔ key.InRange ∧ packPublicKey p key = .ok s := by
  constructor
  · exact (unpackPublicKey_decides p s).of_eq_ok
  · rintro ⟨hRange, hPack⟩
    exact ((packPublicKey_returns hRange).of_eq_ok hPack).2

end Encoding

------------------------------------------------------------
-- Secret Keys
------------------------------------------------------------

/- The secret vectors and the low parts are in their ranges. -/
structure SecretParts.InRange
    {p : ParameterSet}
    (key : SecretParts p) : Prop where
  s1 : ∀ i : Fin p.columns, Entries.Within p.eta key.s1[i]
  s2 : ∀ i : Fin p.rows, Entries.Within p.eta key.s2[i]
  t0 :
    ∀ i : Fin p.rows, Encoding.HalfOpen (-4096) 4096 key.t0[i]

namespace Encoding

open Outcome

/-
  The sections of a secret key: seeds and digest, then three
  vectors.
-/
theorem secretKeyBytes_eq_add
    (p : ParameterSet) :
    p.secretKeyBytes =
      128
        + (p.columns * p.secretPolyBytes
          + (p.rows * p.secretPolyBytes
            + p.rows * packedBytes Rounding.droppedBits)) := by
  have hVectors :=
    Nat.add_mul p.columns p.rows p.secretPolyBytes
  unfold ParameterSet.secretKeyBytes seedBytes keyDigestBytes
  omega

/- The vectors of a secret key follow its seeds. -/
theorem length_secretVectors
    {p : ParameterSet}
    {s : Bytes}
    (hSize : s.length = p.secretKeyBytes) :
    (s.drop 128).length =
      p.columns * p.secretPolyBytes
        + (p.rows * p.secretPolyBytes
          + p.rows * packedBytes Rounding.droppedBits) := by
  have hSections := secretKeyBytes_eq_add p
  rw [List.length_drop]
  omega

/- A packed secret key is unpacked again. -/
theorem packSecretKey_returns
    {p : ParameterSet}
    {key : SecretParts p}
    (h : key.InRange) :
    Returns (packSecretKey p key) fun s =>
      s.length = p.secretKeyBytes
        ∧ unpackSecretKey p s = .ok key := by
  rcases (isCodec_secret p).packVec_returns h.s1 with
    ⟨s1, hPack1, hSize1, hUnpack1⟩
  rcases (isCodec_secret p).packVec_returns h.s2 with
    ⟨s2, hPack2, hSize2, hUnpack2⟩
  rcases isCodec_lowPart.packVec_returns h.t0 with
    ⟨t0, hPack0, hSize0, hUnpack0⟩
  let s :=
    key.rho.toList
      ++ (key.key.toList ++ (key.tr.toList ++ (s1 ++ (s2 ++ t0))))
  have hLength : s.length = p.secretKeyBytes := by
    rw [secretKeyBytes_eq_add]
    simp only [s, List.length_append, Vector.length_toList]
    omega
  have hRho : part s 0 32 = key.rho.toList :=
    part_middle (a := []) rfl Vector.length_toList
  have hKey : part s 32 32 = key.key.toList :=
    part_middle Vector.length_toList Vector.length_toList
  have hTr : part s 64 64 = key.tr.toList := by
    have hFront :
        (key.rho.toList ++ key.key.toList).length = 64 := by
      simp
    have hDigest : key.tr.toList.length = 64 :=
      Vector.length_toList
    have hMiddle :=
      part_middle (b := s1 ++ (s2 ++ t0)) hFront hDigest
    rw [List.append_assoc] at hMiddle
    exact hMiddle
  have hDrop : s.drop 128 = s1 ++ (s2 ++ t0) := by
    have hFront :
        (key.rho.toList ++ key.key.toList
          ++ key.tr.toList).length = 128 := by
      simp
    have hRest :
        (key.rho.toList ++ key.key.toList ++ key.tr.toList
          ++ (s1 ++ (s2 ++ t0))).drop 128 =
          s1 ++ (s2 ++ t0) :=
      List.drop_left' hFront
    simp only [List.append_assoc] at hRest
    exact hRest
  refine ⟨s, ?_, hLength, ?_⟩
  · rw [packSecretKey, hPack1, hPack2, hPack0]
    refine congrArg Except.ok ?_
    simp only [s, List.append_assoc]
  · rw [unpackSecretKey, dif_pos hLength]
    dsimp only
    rw [hDrop, List.drop_left' hSize1, ← List.drop_drop,
      List.drop_left' hSize1, List.drop_left' hSize2,
      unpackVec_append hSize1, unpackVec_append hSize2,
      hUnpack1, hUnpack2, hUnpack0, block_eq _ hRho,
      block_eq _ hKey, block_eq _ hTr]
    rfl

/- A string of another size is refused as a secret key. -/
theorem unpackSecretKey_eq_fail
    {p : ParameterSet}
    {s : Bytes}
    (hSize : s.length ≠ p.secretKeyBytes) :
    unpackSecretKey p s =
      Outcome.fail
        (.invalidKeySize p.secretKeyBytes s.length) := by
  rw [unpackSecretKey, dif_neg hSize]

/- An accepted secret key is the packed form of its parts. -/
theorem unpackSecretKey_decides
    (p : ParameterSet)
    (s : Bytes) :
    Decides (unpackSecretKey p s) fun key =>
      key.InRange ∧ packSecretKey p key = .ok s := by
  unfold unpackSecretKey
  split
  · rename_i hSize
    have hVectors := length_secretVectors hSize
    dsimp only
    rw [← List.drop_drop]
    obtain ⟨v, hv⟩ : ∃ v, s.drop 128 = v := ⟨_, rfl⟩
    rw [hv] at hVectors ⊢
    refine ((isCodec_secret p).unpackVec_take_decides
      (by omega)).bind ?_
    rintro s1 ⟨hRange1, hPack1⟩
    have hRest :
        (v.drop (p.columns * p.secretPolyBytes)).length =
          p.rows * p.secretPolyBytes
            + p.rows * packedBytes Rounding.droppedBits := by
      rw [List.length_drop]
      omega
    obtain ⟨r, hr⟩ :
        ∃ r, v.drop (p.columns * p.secretPolyBytes) = r :=
      ⟨_, rfl⟩
    rw [hr] at hRest ⊢
    refine ((isCodec_secret p).unpackVec_take_decides
      (by omega)).bind ?_
    rintro s2 ⟨hRange2, hPack2⟩
    have hLast :
        (r.drop (p.rows * p.secretPolyBytes)).length =
          p.rows * packedBytes Rounding.droppedBits := by
      rw [List.length_drop]
      omega
    refine (isCodec_lowPart.unpackVec_decides hLast).bind ?_
    rintro t0 ⟨hRange0, hPack0⟩
    refine Or.inl ⟨_, rfl, ⟨hRange1, hRange2, hRange0⟩, ?_⟩
    rw [packSecretKey, hPack1, hPack2, hPack0]
    refine congrArg Except.ok ?_
    rw [toList_block, toList_block, toList_block]
    simp only [List.append_assoc]
    rw [List.take_append_drop, ← hr, List.take_append_drop, ← hv,
      part_append_drop s 64 64, part_append_drop s 32 32]
    exact part_append_drop s 0 32
  · exact Or.inr ⟨_, rfl, _, rfl⟩

end Encoding

end LatticeSignature
