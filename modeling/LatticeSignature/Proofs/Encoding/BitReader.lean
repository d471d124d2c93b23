import LatticeSignature.Proofs.Encoding.BitStream

/-
  Unpacking from a byte string.  Bytes go into an accumulator
  until there are enough bits for a field, which leaves it as
  a coefficient.

  Main declarations:
    * `Reader.fill`, `Reader.takeField`, `Reader.takeAll`
    * `Reader.Holds`
    * `Reader.fill_runs`, `Reader.takeAll_runs`
    * `Packing.unpackFrom`, `Packing.unpackFrom_runs`
-/

------------------------------------------------------------
-- Readers
------------------------------------------------------------

namespace LatticeSignature

open Outcome Access

/- The bits that wait, and the bytes that are left. -/
structure Reader where
  pending : Accumulator
  rest : Bytes

namespace Reader

variable {ε : Type}

/- Put the next byte above the bits that wait, or zeros. -/
def next
    (r : Reader) : Reader :=
  ⟨r.pending.push 8 (r.rest.headD 0).toUInt64, r.rest.tail⟩

/- Read bytes until `width` bits wait. -/
def fill
    (width : Nat)
    (r : Reader) : Access ε Reader :=
  if _hMore : r.pending.count < width then do
    assuming (r.pending.count < 64) (.ok ())
    fill width r.next
  else
    pure r
termination_by width - r.pending.count
decreasing_by
  simp only [next, Accumulator.push]
  omega

/- The lowest bits that wait, as a word, and those above. -/
def takeField
    (width : Nat)
    (r : Reader) : Access ε (Int × Reader) := do
  let r ← fill width r
  assuming (width < 64 ∧ width ≤ r.pending.count) (.ok ())
  let value := (r.pending.word &&& Packing.mask width).toNat
  return (Word.wrap32 value, ⟨r.pending.drop width, r.rest⟩)

/- The words of the next fields. -/
def takeAll
    (width : Nat) : Nat → Reader → Access ε (List Int)
  | 0, _ => pure []
  | count + 1, r => do
      let (c, r) ← takeField width r
      let rest ← takeAll width count r
      return c :: rest

/- The bits that wait are followed by those of the bytes. -/
structure Holds
    (r : Reader)
    (s : Bits) : Prop where
  clear : r.pending.Clear
  bits : r.pending.bits ++ Bits.ofBytes r.rest = s

theorem Holds.length_eq
    {r : Reader}
    {s : Bits}
    (h : r.Holds s) :
    s.length = r.pending.count + 8 * r.rest.length := by
  rw [← h.bits, List.length_append, Bits.length_ofBytes]
  exact congrArg (· + 8 * r.rest.length) (Bits.length_ofNat _ _)

theorem holds_start
    (s : Bytes) :
    Holds ⟨Accumulator.empty, s⟩ (Bits.ofBytes s) where
  clear := Accumulator.clear_empty
  bits := rfl

/- The bits of a byte are the same wherever they wait. -/
theorem Holds.next
    {r : Reader}
    {s : Bits}
    (h : r.Holds s)
    (hRest : r.rest ≠ [])
    (hCount : r.pending.count + 8 ≤ 64) :
    r.next.Holds s := by
  rcases r with ⟨a, rest⟩
  cases rest with
  | nil => exact absurd rfl hRest
  | cons b rest =>
      have hByte : b.toUInt64.toNat < 2 ^ 8 := by
        rw [UInt8.toNat_toUInt64]
        exact b.toNat_lt
      rcases Accumulator.push_bits h.clear hByte (by decide)
          hCount with
        ⟨hClear, hBits⟩
      refine ⟨hClear, ?_⟩
      have hAll := h.bits
      rw [← hAll]
      change Accumulator.bits (a.push 8 b.toUInt64) ++ _ = _
      rw [hBits, UInt8.toNat_toUInt64, List.append_assoc]
      rfl

/- There are enough bits for a field after reading bytes. -/
theorem fill_runs
    {width : Nat}
    {r : Reader}
    {s : Bits}
    (hWidth : width ≤ 32)
    (h : r.Holds s)
    (hEnough : width ≤ s.length) :
    ∃ r' : Reader,
      Runs (fill width r : Access ε Reader) (.ok r')
        ∧ r'.Holds s
        ∧ width ≤ r'.pending.count := by
  -- Each byte brings eight of the bits that are missing.
  induction hMissing : width - r.pending.count
    using Nat.strong_induction_on generalizing r with
  | _ missing ih =>
      unfold fill
      by_cases hMore : r.pending.count < width
      · have hRest : r.rest ≠ [] := by
          intro hNil
          have hLength := h.length_eq
          rw [hNil, List.length_nil] at hLength
          omega
        have hShift : r.pending.count < 64 := by omega
        have hNext : r.next.pending.count = r.pending.count + 8 :=
          rfl
        rcases ih (width - (r.pending.count + 8)) (by omega)
            (h.next hRest (by omega)) rfl with
          ⟨r', hRuns, hHolds⟩
        rw [dif_pos hMore]
        exact
          ⟨r', (runs_assuming hShift _).ok_bind hRuns, hHolds⟩
      · rw [dif_neg hMore]
        exact ⟨r, runs_pure r, h, by omega⟩

/- A field is the number of the first bits. -/
theorem takeField_runs
    {width : Nat}
    {r : Reader}
    {s : Bits}
    (hWidth : Packing.IsWidth width)
    (h : r.Holds s)
    (hEnough : width ≤ s.length) :
    ∃ r' : Reader,
      Runs (takeField width r : Access ε (Int × Reader))
          (.ok (Int.ofNat (Bits.toNat (s.take width)), r'))
        ∧ r'.Holds (s.drop width) := by
  have hMax := hWidth.2
  unfold Packing.maxWidth at hMax
  rcases fill_runs (ε := ε) (by omega) h hEnough with
    ⟨u, hFill, hHolds, hCount⟩
  rcases Accumulator.drop_bits hHolds.clear hCount
      (by omega) with
    ⟨hClear, hBits⟩
  have hAll := hHolds.bits
  rw [hBits, List.append_assoc] at hAll
  have hLow : (Bits.ofNat width u.pending.word.toNat).length =
      width :=
    Bits.length_ofNat _ _
  have hValue :
      (u.pending.word &&& Packing.mask width).toNat =
        Bits.toNat (s.take width) := by
    rw [Packing.toNat_and_mask _ (by omega), ← hAll,
      List.take_left' hLow, Bits.toNat_ofNat]
  have hSmall : Bits.toNat (s.take width) < 2 ^ 24 := by
    refine (Bits.toNat_lt _).trans_le ?_
    apply Nat.pow_le_pow_right (by decide)
    rw [List.length_take]
    omega
  have hWord :
      Word.wrap32 (Bits.toNat (s.take width)) =
        Int.ofNat (Bits.toNat (s.take width)) := by
    apply Word.wrap32_of_fits
    unfold Word.Fits32
    omega
  refine ⟨⟨u.pending.drop width, u.rest⟩, ?_, hClear, ?_⟩
  · refine hFill.ok_bind ?_
    refine
      (runs_assuming ⟨(by omega : width < 64), hCount⟩ _).ok_bind
        ?_
    dsimp only
    rw [hValue, hWord]
    exact runs_pure _
  · rw [← hAll, List.drop_left' hLow]

/- The words are the numbers of all the fields. -/
theorem takeAll_runs
    {width : Nat}
    (count : Nat)
    {r : Reader}
    {s : Bits}
    (hWidth : Packing.IsWidth width)
    (h : r.Holds s)
    (hEnough : count * width ≤ s.length) :
    Runs (takeAll width count r : Access ε (List Int))
      (.ok ((Bits.fields width count s).map Int.ofNat)) := by
  induction count generalizing r s with
  | zero => exact runs_pure []
  | succ count ih =>
      rw [Nat.succ_mul] at hEnough
      rcases takeField_runs (ε := ε) hWidth h (by omega) with
        ⟨r', hFirst, hHolds⟩
      have hRest : count * width ≤ (s.drop width).length := by
        rw [List.length_drop]
        omega
      refine hFirst.ok_bind ?_
      refine (ih hHolds hRest).ok_bind ?_
      exact runs_pure _

end Reader

------------------------------------------------------------
-- Polynomials of a Byte String
------------------------------------------------------------

namespace Packing

/- Unpack all coefficients, one after the other. -/
def unpackFrom
    (width : Nat)
    (s : Bytes) : Access PrimitiveError Poly := do
  ofOutcome (checkSpace width s.length)
  let words ←
    Reader.takeAll width degree ⟨Accumulator.empty, s⟩
  ofList degree words

/- Reading field by field finds the fields of the whole string. -/
theorem unpackFrom_runs
    (width : Nat)
    (s : Bytes) :
    Runs (unpackFrom width s) (unpack width s) := by
  refine (runs_ofOutcome _).bind ?_
  intro _ hAccepted
  have hSpace : IsWidth width ∧ s.length = packedBytes width := by
    by_contra hRefused
    rw [checkSpace_refuses hRefused] at hAccepted
    cases hAccepted
  have hSize := packedBytes_mul_eight width
  have hEnough :
      degree * width ≤ (Bits.ofBytes s).length := by
    rw [Bits.length_ofBytes, hSpace.2]
    omega
  refine
    (Reader.takeAll_runs degree hSpace.1 (Reader.holds_start s)
      hEnough).ok_bind ?_
  exact runs_ofList (by simp)

end Packing

end LatticeSignature
