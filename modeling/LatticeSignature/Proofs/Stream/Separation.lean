import LatticeSignature.Proofs.Outcome
import LatticeSignature.Stream.Seeded

/-
  The nonce separates the streams of a seed.  A message that
  fits into one block stands in the lanes byte by byte, so
  short seeds with distinct nonces start distinct streams.

  Main declarations:
    * `Keccak.byteAt_addByte`
    * `Keccak.Absorber.byteAt_absorb`
    * `Keccak.extend_injective`
    * `SeededStream.nonceBytes_injective`
    * `SeededStream.start_returns`
    * `SeededStream.start_injective`
-/

------------------------------------------------------------
-- Bytes of Lanes
------------------------------------------------------------

namespace LatticeSignature

namespace Keccak

/- A byte that is added to a word shows at its own place only. -/
theorem toUInt8_shiftRight_xor
    (x : UInt64)
    (b : UInt8)
    {r s : Nat}
    (hr : r < 8)
    (hs : s < 8) :
    ((x ^^^ (b.toUInt64 <<< UInt64.ofNat (8 * r)))
        >>> UInt64.ofNat (8 * s)).toUInt8 =
      (x >>> UInt64.ofNat (8 * s)).toUInt8
        ^^^ (if s = r then b else 0) := by
  apply UInt8.toBitVec_inj.1
  apply BitVec.eq_of_getLsbD_eq
  intro i hi
  have hr' : 8 * r % 64 = 8 * r := by omega
  have hs' : 8 * s % 64 = 8 * s := by omega
  have hFits : 8 * s + i < 64 := by omega
  by_cases hSame : s = r
  · subst hSame
    simp [hs', hi, hFits, Nat.lt_trans hi (by decide : 8 < 64)]
  · -- A bit at another place is below the byte or above it.
    have hOther :
        8 * s + i < 8 * r ∨ 8 ≤ 8 * s + i - 8 * r := by
      omega
    rcases hOther with hBelow | hAbove
    · simp [hSame, hr', hs', hi, hBelow]
    · simp [hSame, hr', hs', hi,
        BitVec.getLsbD_of_ge b.toBitVec _ hAbove]

/- Adding a byte changes the lanes at its position only. -/
theorem byteAt_addByte
    (a : Lanes)
    (b : UInt8)
    {i j : Nat}
    (hi : i < 200)
    (hj : j < 200) :
    byteAt (addByte a i b) j =
      byteAt a j ^^^ (if j = i then b else 0) := by
  have hLane : i / 8 < 25 := by omega
  have hLane' : j / 8 < 25 := by omega
  have hIndex : ∀ v : Lanes, laneAt v (j / 8) = v[j / 8] := by
    intro v
    unfold laneAt
    simp [Nat.mod_eq_of_lt hLane']
  have hEight : 0 < 8 := by decide
  unfold byteAt
  rw [addByte, dif_pos hLane, hIndex, hIndex]
  by_cases hSame : i / 8 = j / 8
  · have hPlace : j % 8 = i % 8 ↔ j = i := by omega
    simp only [hSame, Vector.getElem_set_self]
    rw [toUInt8_shiftRight_xor _ _ (Nat.mod_lt i hEight)
      (Nat.mod_lt j hEight)]
    simp only [hPlace]
  · have hNe : j ≠ i := by
      rintro rfl
      exact hSame rfl
    rw [Vector.getElem_set_ne _ _ hSame, if_neg hNe,
      UInt8.xor_zero]

------------------------------------------------------------
-- Messages in One Block
------------------------------------------------------------

namespace Absorber

variable {rate : Nat}

/- A byte that does not fill the block is only added. -/
theorem absorbByte_of_room
    (s : Absorber rate)
    (b : UInt8)
    (hRoom : s.position + 1 < rate) :
    s.absorbByte b =
      ⟨addByte s.lanes s.position b, s.position + 1⟩ := by
  unfold absorbByte
  rw [if_neg (Nat.ne_of_lt hRoom)]

theorem position_absorb
    (s : Absorber rate)
    (bytes : Bytes)
    (hRoom : s.position + bytes.length < rate) :
    (s.absorb bytes).position = s.position + bytes.length := by
  induction bytes generalizing s with
  | nil => rfl
  | cons b rest ih =>
      rw [List.length_cons] at hRoom
      change ((s.absorbByte b).absorb rest).position = _
      rw [s.absorbByte_of_room b (by omega),
        ih _ (by dsimp only; omega), List.length_cons]
      dsimp only
      omega

/- Bytes that do not fill the block are added one by one. -/
theorem byteAt_absorb
    (s : Absorber rate)
    (bytes : Bytes)
    (hRate : rate ≤ 200)
    (hRoom : s.position + bytes.length < rate)
    {j : Nat}
    (hj : j < 200) :
    byteAt (s.absorb bytes).lanes j =
      byteAt s.lanes j
        ^^^ (if s.position ≤ j then
          bytes.getD (j - s.position) 0
        else
          0) := by
  induction bytes generalizing s with
  | nil =>
      change byteAt s.lanes j = _
      simp
  | cons b rest ih =>
      rw [List.length_cons] at hRoom
      change byteAt ((s.absorbByte b).absorb rest).lanes j = _
      rw [s.absorbByte_of_room b (by omega),
        ih _ (by dsimp only; omega)]
      dsimp only
      rw [byteAt_addByte s.lanes b (by omega) hj]
      -- The first byte is at the position, the rest after it.
      rcases Nat.lt_trichotomy j s.position with
        hBelow | rfl | hAbove
      · simp [show ¬ s.position ≤ j by omega,
          show ¬ s.position + 1 ≤ j by omega, Nat.ne_of_lt hBelow]
      · rw [if_pos rfl, if_neg (Nat.not_succ_le_self _),
          if_pos (Nat.le_refl _), Nat.sub_self, UInt8.xor_zero]
        rfl
      · have hNext : j - s.position = j - (s.position + 1) + 1 := by
          omega
        simp [show s.position ≤ j by omega,
          show s.position + 1 ≤ j by omega, Nat.ne_of_gt hAbove,
          hNext]

end Absorber

/- The lanes before the first permutation hold the message. -/
theorem byteAt_extend
    {rate : Nat}
    (message : Bytes)
    (hRate : rate ≤ 200)
    (hRoom : message.length + 1 < rate)
    {i : Nat}
    (hi : i < message.length) :
    byteAt (extend rate message).lanes i = message[i] := by
  have hStart : (Absorber.start : Absorber rate).position = 0 :=
    rfl
  have hPosition :=
    Absorber.position_absorb (Absorber.start : Absorber rate)
      message (by rw [hStart]; omega)
  rw [hStart, Nat.zero_add] at hPosition
  have hZero :
      byteAt (Absorber.start : Absorber rate).lanes i = 0 := by
    unfold byteAt laneAt Absorber.start
    simp
  unfold extend Absorber.finish
  dsimp only
  rw [hPosition, byteAt_addByte _ _ (by omega) (by omega),
    byteAt_addByte _ _ (by omega) (by omega),
    Absorber.byteAt_absorb _ _ hRate (by rw [hStart]; omega)
      (by omega),
    hZero, hStart]
  simp [show i ≠ message.length by omega,
    show i ≠ rate - 1 by omega, hi]

/- Messages of one length that fit into one block differ. -/
theorem extend_injective
    {rate : Nat}
    {m m' : Bytes}
    (hRate : rate ≤ 200)
    (hLength : m.length = m'.length)
    (hRoom : m.length + 1 < rate)
    (hSame : extend rate m = extend rate m') :
    m = m' := by
  apply List.ext_getElem hLength
  intro i hi hi'
  rw [← byteAt_extend m hRate hRoom hi, hSame,
    byteAt_extend m' hRate (hLength ▸ hRoom) hi']

end Keccak

------------------------------------------------------------
-- Nonces
------------------------------------------------------------

namespace SeededStream

theorem nonceBytes_injective
    {n n' : UInt16}
    (hSame : nonceBytes n = nonceBytes n') :
    n = n' := by
  have hValue := congrArg Bytes.toNatLE hSame
  unfold nonceBytes at hValue
  rw [Bytes.toNatLE_ofNatLE, Bytes.toNatLE_ofNatLE,
    Nat.mod_eq_of_lt n.toNat_lt, Nat.mod_eq_of_lt n'.toNat_lt]
    at hValue
  exact UInt16.toNat_inj.1 hValue

/- Every kind of stream accepts seeds of 32 bytes or more. -/
theorem start_returns
    (kind : StreamKind)
    {seed : Bytes}
    (nonce : UInt16)
    (hSeed : 32 ≤ seed.length) :
    Outcome.Returns (start kind seed nonce) fun _ => True := by
  cases kind with
  | shake128 => exact ⟨_, rfl, trivial⟩
  | shake256 => exact ⟨_, rfl, trivial⟩
  | aes256 =>
      rw [start, dif_pos hSeed]
      exact ⟨_, rfl, trivial⟩

/- Distinct nonces start distinct streams of a short seed. -/
theorem start_injective
    {kind : StreamKind}
    {seed : Bytes}
    {n n' : UInt16}
    {stream : SeededStream}
    (hSeed : seed.length ≤ 128)
    (hStart : start kind seed n = .ok stream)
    (hStart' : start kind seed n' = .ok stream) :
    n = n' := by
  have hSame := hStart.trans hStart'.symm
  have hLength :
      ∀ m : UInt16,
        (seed ++ nonceBytes m).length = seed.length + 2 := by
    intro m
    simp [nonceBytes]
  have hTail :
      seed ++ nonceBytes n = seed ++ nonceBytes n' → n = n' :=
    fun h => nonceBytes_injective (List.append_cancel_left h)
  cases kind with
  | shake128 =>
      injection Except.ok.inj hSame with hSponge
      apply hTail
      refine Keccak.extend_injective (by decide) ?_ ?_ hSponge
      · rw [hLength, hLength]
      · rw [hLength, Keccak.rate128]
        omega
  | shake256 =>
      injection Except.ok.inj hSame with hSponge
      apply hTail
      refine Keccak.extend_injective (by decide) ?_ ?_ hSponge
      · rw [hLength, hLength]
      · rw [hLength, Keccak.rate256]
        omega
  | aes256 =>
      unfold start at hSame
      dsimp only at hSame
      split at hSame
      · injection Except.ok.inj hSame with hCounter
        exact congrArg CounterStream.nonce hCounter
      · rename_i hShort
        unfold start at hStart
        rw [dif_neg hShort] at hStart
        cases hStart

end SeededStream

end LatticeSignature
