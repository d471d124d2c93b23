import LatticeSignature.Proofs.Encoding.HintCursor
import LatticeSignature.Proofs.Encoding.Keys
import LatticeSignature.Proofs.Encoding.Signature

/-
  Keys and signatures are read by slices of their bytes, and
  written into the spaces that their sections have.  All slices
  are in bounds, all vectors have their dimensions, and no bit
  of a packed coefficient is dropped.

  Main declarations:
    * `Guarded.readVec`, `Guarded.readVec_runs`
    * `Guarded.readPublicKey`, `Guarded.readSecretKey`
    * `Guarded.readSignature`
    * `Guarded.writeFields`, `Guarded.writeOffset`
    * `Guarded.writePublicKey`, `Guarded.writeSecretKey`
    * `Guarded.writeSignature`, `Guarded.writeCommitment`
-/

------------------------------------------------------------
-- Reading Sections
------------------------------------------------------------

namespace LatticeSignature

namespace Guarded

open Outcome Access Encoding

variable {n size : Nat}

/- The bytes of a slice as a vector of their number. -/
def readBlock
    (bytes : Bytes)
    (start size : Nat) :
    Access SchemeError (Vector UInt8 size) := do
  let block ← slice bytes start (start + size)
  ofList size block

/-
  Read polynomials of `size` bytes each from a section, which
  has as many of them as the vector has dimensions.
-/
def readVec
    (n size : Nat)
    (unpack : Bytes → Outcome SchemeError Poly)
    (bytes : Bytes) : Access SchemeError (PolyVec n) := do
  assuming (bytes.length / size = n) (.ok ())
  tabulate fun i => do
    let chunk ← slice bytes (i.val * size) ((i.val + 1) * size)
    ofOutcome (unpack chunk)

/- Read a public key. -/
def readPublicKey
    (p : ParameterSet)
    (bytes : Bytes) : Access SchemeError (PublicParts p) := do
  ofOutcome
    (require (bytes.length == p.publicKeyBytes)
      (.invalidKeySize p.publicKeyBytes bytes.length))
  let rho ← readBlock bytes 0 32
  let body ← slice bytes 32 bytes.length
  let t1 ←
    readVec p.rows (packedBytes highPartBits) unpackHighPart body
  return ⟨rho, t1⟩

/- Read a secret key. -/
def readSecretKey
    (p : ParameterSet)
    (bytes : Bytes) : Access SchemeError (SecretParts p) := do
  ofOutcome
    (require (bytes.length == p.secretKeyBytes)
      (.invalidKeySize p.secretKeyBytes bytes.length))
  let rho ← readBlock bytes 0 32
  let key ← readBlock bytes 32 32
  let tr ← readBlock bytes 64 64
  let s1End := 128 + p.columns * p.secretPolyBytes
  let s2End := s1End + p.rows * p.secretPolyBytes
  let s1Bytes ← slice bytes 128 s1End
  let s2Bytes ← slice bytes s1End s2End
  let t0Bytes ← slice bytes s2End bytes.length
  let s1 ←
    readVec p.columns p.secretPolyBytes (unpackSecret p) s1Bytes
  let s2 ←
    readVec p.rows p.secretPolyBytes (unpackSecret p) s2Bytes
  let t0 ←
    readVec p.rows (packedBytes Rounding.droppedBits)
      unpackLowPart t0Bytes
  return ⟨rho, key, tr, s1, s2, t0⟩

/- Read a signature. -/
def readSignature
    (p : ParameterSet)
    (bytes : Bytes) : Access SchemeError (SignatureParts p) := do
  ofOutcome
    (require (bytes.length == p.signatureBytes)
      (.invalidSignatureSize p.signatureBytes bytes.length))
  let zEnd :=
    p.challengeBytes + p.columns * p.responsePolyBytes
  let challenge ← slice bytes 0 p.challengeBytes
  let zBytes ← slice bytes p.challengeBytes zEnd
  let hintBytes ← slice bytes zEnd bytes.length
  let z ←
    readVec p.columns p.responsePolyBytes (unpackResponse p)
      zBytes
  let hints ← HintCursor.readHints p hintBytes
  return ⟨challenge, z, hints⟩

------------------------------------------------------------
-- Readers in Bounds
------------------------------------------------------------

theorem readBlock_runs
    {bytes : Bytes}
    {start size : Nat}
    (hSize : start + size ≤ bytes.length) :
    Runs (readBlock bytes start size)
      (.ok (block bytes start size hSize)) :=
  (runs_slice_add hSize).ok_bind (runs_ofList (length_part hSize))

/- A vector is read from its part of a byte string. -/
theorem readVec_runs
    {unpack : Bytes → Outcome SchemeError Poly}
    {bytes : Bytes}
    {start : Nat}
    (hPos : 0 < size)
    (hSize : start + n * size ≤ bytes.length) :
    Runs (readVec n size unpack (part bytes start (n * size)))
      (unpackVec n size unpack (bytes.drop start)) := by
  have hLength := length_part hSize
  have hCount :
      (part bytes start (n * size)).length / size = n := by
    rw [hLength, Nat.mul_div_cancel _ hPos]
  have hWhole :
      part bytes start (n * size)
          ++ bytes.drop (start + n * size) =
        bytes.drop start :=
    part_append_drop bytes start (n * size)
  have hFront :
      unpackVec n size unpack
          (part bytes start (n * size)
            ++ bytes.drop (start + n * size)) =
        unpackVec n size unpack (part bytes start (n * size)) :=
    unpackVec_append hLength _
  rw [hWhole] at hFront
  rw [hFront]
  refine (runs_assuming hCount _).ok_bind (runs_tabulate ?_)
  intro i
  have hEnd := part_end_le size i
  rw [Nat.succ_mul]
  exact (runs_slice_add (by omega)).ok_bind (runs_ofOutcome _)

theorem secretPolyBytes_pos
    (p : ParameterSet) :
    0 < p.secretPolyBytes := by
  cases p <;> decide

theorem responsePolyBytes_pos
    (p : ParameterSet) :
    0 < p.responsePolyBytes := by
  cases p <;> decide

/- A public key of any bytes is read in bounds. -/
theorem readPublicKey_runs
    (p : ParameterSet)
    (bytes : Bytes) :
    Runs (readPublicKey p bytes) (unpackPublicKey p bytes) := by
  by_cases hSize : bytes.length = p.publicKeyBytes
  swap
  · have hRefused :
        (bytes.length == p.publicKeyBytes) = false := by
      simpa using hSize
    rw [unpackPublicKey_eq_fail hSize]
    exact runs_require_of_false hRefused _ _
  have hSections :
      bytes.length = 32 + p.rows * packedBytes highPartBits :=
    hSize
  rw [unpackPublicKey, dif_pos hSize]
  refine (runs_require (beq_iff_eq.2 hSize) _).ok_bind ?_
  refine (readBlock_runs (by omega)).ok_bind ?_
  refine (runs_slice_to_end hSections).ok_bind ?_
  refine (readVec_runs (by decide) (by omega)).bind ?_
  intro t1 _
  exact runs_pure _

/- A secret key of any bytes is read in bounds. -/
theorem readSecretKey_runs
    (p : ParameterSet)
    (bytes : Bytes) :
    Runs (readSecretKey p bytes) (unpackSecretKey p bytes) := by
  by_cases hSize : bytes.length = p.secretKeyBytes
  swap
  · have hRefused :
        (bytes.length == p.secretKeyBytes) = false := by
      simpa using hSize
    rw [unpackSecretKey_eq_fail hSize]
    exact runs_require_of_false hRefused _ _
  have hSections := secretKeyBytes_eq_add p
  have hPos := secretPolyBytes_pos p
  rw [← hSize] at hSections
  rw [unpackSecretKey, dif_pos hSize]
  refine (runs_require (beq_iff_eq.2 hSize) _).ok_bind ?_
  refine (readBlock_runs (by omega)).ok_bind ?_
  refine (readBlock_runs (by omega)).ok_bind ?_
  refine (readBlock_runs (by omega)).ok_bind ?_
  dsimp only
  rw [List.drop_drop, List.drop_drop, ← Nat.add_assoc]
  refine (runs_slice_add (by omega)).ok_bind ?_
  refine (runs_slice_add (by omega)).ok_bind ?_
  have hLast :
      bytes.length =
        128 + p.columns * p.secretPolyBytes
            + p.rows * p.secretPolyBytes
          + p.rows * packedBytes Rounding.droppedBits := by
    omega
  refine (runs_slice_to_end hLast).ok_bind ?_
  refine (readVec_runs hPos (by omega)).bind ?_
  intro s1 _
  refine (readVec_runs hPos (by omega)).bind ?_
  intro s2 _
  refine (readVec_runs (by decide) (by omega)).bind ?_
  intro t0 _
  exact runs_pure _

/- A signature of any bytes is read in bounds. -/
theorem readSignature_runs
    (p : ParameterSet)
    (bytes : Bytes) :
    Runs (readSignature p bytes) (unpackSignature p bytes) := by
  refine (runs_ofOutcome _).bind ?_
  rintro ⟨⟩ hCheck
  have hSize : bytes.length = p.signatureBytes :=
    beq_iff_eq.1 ((require_eq_ok_iff _ _).1 hCheck)
  have hSections :
      bytes.length =
        p.challengeBytes + p.columns * p.responsePolyBytes
          + p.hintBytes :=
    hSize
  have hChallenge :
      Runs
        (slice bytes 0 p.challengeBytes
          : Access SchemeError Bytes)
        (.ok (bytes.take p.challengeBytes)) :=
    runs_slice (Nat.zero_le _) (by omega)
  have hHints :
      part bytes
          (p.challengeBytes + p.columns * p.responsePolyBytes)
          p.hintBytes =
        bytes.drop
          (p.challengeBytes
            + p.columns * p.responsePolyBytes) := by
    rw [part]
    apply List.take_of_length_le
    rw [List.length_drop]
    omega
  refine hChallenge.ok_bind ?_
  refine (runs_slice_add (by omega)).ok_bind ?_
  refine (runs_slice_to_end hSections).ok_bind ?_
  dsimp only
  rw [hHints, List.drop_drop]
  refine (readVec_runs (responsePolyBytes_pos p)
    (by omega)).bind ?_
  intro z _
  refine (HintCursor.readHints_runs p _).bind ?_
  intro hints _
  exact runs_pure _

------------------------------------------------------------
-- Writing Sections
------------------------------------------------------------

/-
  Pack coefficients that their fields hold whole, into a space
  that they fill.
-/
def writeFields
    (width space : Nat)
    (p : Poly) : Access SchemeError Bytes := do
  let bytes ←
    assuming (Packing.FitsWidth width p)
      (SchemeError.lift (Packing.pack width space p))
  assuming (bytes.length = space) (.ok bytes)

/- Pack the distances of the coefficients below an offset. -/
def writeOffset
    (offset : Int)
    (width space : Nat)
    (p : Poly) : Access SchemeError Bytes := do
  let shifted ←
    ofOutcome (Outcome.mapEntries (Word.sub32 offset) p)
  writeFields width space shifted

/- Pack the polynomials of a vector in a row. -/
def writeVec
    (write : Poly → Access SchemeError Bytes)
    (v : PolyVec n) : Access SchemeError Bytes := do
  let packed ← tabulate fun i : Fin n => write v[i]
  return packed.toList.flatten

/- Write a public key. -/
def writePublicKey
    (p : ParameterSet)
    (parts : PublicParts p) : Access SchemeError Bytes := do
  let t1 ←
    writeVec
      (writeFields highPartBits (packedBytes highPartBits))
      parts.t1
  let bytes := parts.rho.toList ++ t1
  assuming (bytes.length = p.publicKeyBytes) (.ok bytes)

/- Write a secret key. -/
def writeSecretKey
    (p : ParameterSet)
    (parts : SecretParts p) : Access SchemeError Bytes := do
  let writeSecret :=
    writeOffset p.eta p.secretBits p.secretPolyBytes
  let s1 ← writeVec writeSecret parts.s1
  let s2 ← writeVec writeSecret parts.s2
  let t0 ←
    writeVec
      (writeOffset lowPartOffset Rounding.droppedBits
        (packedBytes Rounding.droppedBits))
      parts.t0
  let bytes :=
    parts.rho.toList ++ parts.key.toList ++ parts.tr.toList
      ++ s1 ++ s2 ++ t0
  assuming (bytes.length = p.secretKeyBytes) (.ok bytes)

/- Write a signature. -/
def writeSignature
    (p : ParameterSet)
    (parts : SignatureParts p) : Access SchemeError Bytes := do
  ofOutcome
    (require
      (parts.challenge.length == p.challengeBytes)
      (.invalidSignatureSize
        p.challengeBytes
        parts.challenge.length))
  let z ←
    writeVec
      (writeOffset p.gamma1 p.responseBits p.responsePolyBytes)
      parts.z
  let hints ← HintCursor.writeHints p p.hintBytes parts.hints
  let bytes := parts.challenge ++ z ++ hints
  assuming (bytes.length = p.signatureBytes) (.ok bytes)

/- Write the numbers of commitment buckets. -/
def writeCommitment
    (p : ParameterSet)
    (w : PolyVec p.rows) : Access SchemeError Bytes :=
  writeVec (writeFields p.commitmentBits p.commitmentPolyBytes) w

------------------------------------------------------------
-- Writers in Bounds
------------------------------------------------------------

theorem writeFields_runs
    {width : Nat}
    {p : Poly}
    (hWidth : Packing.IsWidth width)
    (hFits : Packing.FitsWidth width p) :
    Runs (writeFields width (packedBytes width) p)
      (SchemeError.lift
        (Packing.pack width (packedBytes width) p)) := by
  rw [Packing.pack_eq_ok hWidth]
  have hPacked :
      Runs
        (assuming (Packing.FitsWidth width p)
          (SchemeError.lift
            (Packing.pack width (packedBytes width) p)))
        (.ok (Packing.bytes width p)) :=
    (runs_assuming hFits _).congr (by
      rw [Packing.pack_eq_ok hWidth]
      rfl)
  exact hPacked.ok_bind
    (runs_assuming (Packing.length_bytes width p) _)

/- Distances below an offset are written in whole. -/
theorem writeOffset_runs
    {offset width : Nat}
    {p : Poly}
    (hWidth : Packing.IsWidth width)
    (hOffset : offset ≤ 2 ^ 24)
    (hp : HalfOpen ((offset : Int) - 2 ^ width) offset p) :
    Runs (writeOffset offset width (packedBytes width) p)
      (packOffset offset width (packedBytes width) p) := by
  rcases exists_distances (ε := SchemeError) hWidth hOffset
      hp with
    ⟨r, hFits, hShifted, _⟩
  unfold packOffset
  refine (runs_ofOutcome _).bind ?_
  intro shifted hOk
  rw [hShifted] at hOk
  cases hOk
  exact writeFields_runs hWidth hFits

/- A vector is written when its polynomials are. -/
theorem writeVec_runs
    {write : Poly → Access SchemeError Bytes}
    {pack : Poly → Outcome SchemeError Bytes}
    {v : PolyVec n}
    (h : ∀ i : Fin n, Runs (write v[i]) (pack v[i])) :
    Runs (writeVec write v) (packVec pack v) :=
  (runs_tabulate h).bind fun _ _ => runs_pure _

/- A public key in its range is written in bounds. -/
theorem writePublicKey_runs
    {p : ParameterSet}
    {parts : PublicParts p}
    (h : parts.InRange) :
    Runs (writePublicKey p parts) (packPublicKey p parts) := by
  have hWritten := packPublicKey_returns h
  have hT1 :
      Runs
        (writeVec
          (writeFields highPartBits (packedBytes highPartBits))
          parts.t1)
        (packVec (packHighPart (packedBytes highPartBits))
          parts.t1) :=
    writeVec_runs fun i =>
      writeFields_runs ⟨by decide, by decide⟩ (h i)
  unfold packPublicKey at hWritten ⊢
  refine hT1.bind ?_
  intro t1 hOk
  rw [hOk] at hWritten
  exact runs_assuming (hWritten.of_eq_ok rfl).1 _

/- A secret key in its range is written in bounds. -/
theorem writeSecretKey_runs
    {p : ParameterSet}
    {parts : SecretParts p}
    (h : parts.InRange) :
    Runs (writeSecretKey p parts) (packSecretKey p parts) := by
  have hWritten := packSecretKey_returns h
  have hSecret :
      ∀ {n : Nat} {v : PolyVec n},
        (∀ i : Fin n, Entries.Within p.eta v[i]) →
        Runs
          (writeVec
            (writeOffset p.eta p.secretBits p.secretPolyBytes) v)
          (packVec (packSecret p p.secretPolyBytes) v) :=
    fun hv => writeVec_runs fun i =>
      writeOffset_runs (isWidth_secretBits p) (eta_le_two_pow p)
        (halfOpen_secret p (hv i))
  have hLow :
      Runs
        (writeVec
          (writeOffset lowPartOffset Rounding.droppedBits
            (packedBytes Rounding.droppedBits))
          parts.t0)
        (packVec
          (packLowPart (packedBytes Rounding.droppedBits))
          parts.t0) :=
    writeVec_runs fun i =>
      @writeOffset_runs 4096 Rounding.droppedBits _
        ⟨by decide, by decide⟩ (by decide) (h.t0 i)
  unfold packSecretKey at hWritten ⊢
  refine (hSecret h.s1).bind ?_
  intro s1 hOk1
  refine (hSecret h.s2).bind ?_
  intro s2 hOk2
  refine hLow.bind ?_
  intro t0 hOk0
  rw [hOk1, hOk2, hOk0] at hWritten
  exact runs_assuming (hWritten.of_eq_ok rfl).1 _

/- A signature in its range is written in bounds. -/
theorem writeSignature_runs
    {p : ParameterSet}
    {parts : SignatureParts p}
    (h : parts.InRange) :
    Runs (writeSignature p parts) (packSignature p parts) := by
  have hWritten := packSignature_returns h
  have hZ :
      Runs
        (writeVec
          (writeOffset p.gamma1 p.responseBits
            p.responsePolyBytes)
          parts.z)
        (packVec (packResponse p p.responsePolyBytes)
          parts.z) :=
    writeVec_runs fun i =>
      writeOffset_runs (isWidth_responseBits p)
        (gamma1_le_two_pow p)
        (by
          rw [gamma1_sub_two_pow]
          exact h.z i)
  have hSeed :
      (parts.challenge.length == p.challengeBytes) = true :=
    beq_iff_eq.2 h.challenge
  unfold packSignature at hWritten ⊢
  rw [require_bind hSeed] at hWritten ⊢
  refine (runs_require hSeed _).ok_bind ?_
  refine hZ.bind ?_
  intro z hOk
  refine (HintCursor.writeHints_runs p _ _).bind ?_
  intro hints hHints
  rw [hOk, hHints] at hWritten
  exact runs_assuming (hWritten.of_eq_ok rfl).1 _

/- Bucket numbers of their width are written in bounds. -/
theorem writeCommitment_runs
    {p : ParameterSet}
    {w : PolyVec p.rows}
    (h : ∀ i : Fin p.rows,
      Packing.FitsWidth p.commitmentBits w[i]) :
    Runs (writeCommitment p w) (commitmentBytes p w) :=
  writeVec_runs fun i =>
    writeFields_runs (isWidth_commitmentBits p) (h i)

end Guarded

end LatticeSignature
