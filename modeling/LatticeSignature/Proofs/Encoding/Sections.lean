import LatticeSignature.Encoding.Sections
import LatticeSignature.Proofs.Outcome
import Mathlib.Data.List.OfFn
import Mathlib.Tactic.Ring

/-
  Codecs of polynomials, and the codecs of vectors that they
  make when packed polynomials follow each other.

  Main declarations:
    * `Encoding.part_flatten`, `Encoding.flatten_parts`
    * `Encoding.IsCodec`
    * `Encoding.IsCodec.packVec_returns`
    * `Encoding.IsCodec.unpackVec_decides`
    * `Encoding.unpackVec_returns`
-/

------------------------------------------------------------
-- Parts of Byte Strings
------------------------------------------------------------

namespace LatticeSignature

namespace Encoding

open Outcome

theorem length_part
    {s : Bytes}
    {start size : Nat}
    (hSize : start + size ≤ s.length) :
    (part s start size).length = size := by
  rw [part, List.length_take, List.length_drop]
  omega

/- A part does not depend on what follows it. -/
theorem part_append
    {s rest : Bytes}
    {start size : Nat}
    (hSize : start + size ≤ s.length) :
    part (s ++ rest) start size = part s start size := by
  rw [part, part, List.drop_append_of_le_length (by omega),
    List.take_append_of_le_length]
  rw [List.length_drop]
  omega

theorem part_drop
    (s : Bytes)
    (skip start size : Nat) :
    part (s.drop skip) start size = part s (skip + start) size := by
  rw [part, part, List.drop_drop]

theorem part_middle
    {a m b : Bytes}
    {start size : Nat}
    (hStart : a.length = start)
    (hSize : m.length = size) :
    part (a ++ (m ++ b)) start size = m := by
  rw [part, List.drop_left' hStart, List.take_left' hSize]

@[simp] theorem toList_block
    {s : Bytes}
    {start size : Nat}
    (hSize : start + size ≤ s.length) :
    (block s start size hSize).toList = part s start size :=
  rfl

/- A vector of bytes is the block that holds its bytes. -/
theorem block_eq
    {s : Bytes}
    {start size : Nat}
    {v : Vector UInt8 size}
    (hSize : start + size ≤ s.length)
    (hPart : part s start size = v.toList) :
    block s start size hSize = v :=
  Vector.toList_inj.1 hPart

/- What follows a part begins where the part ends. -/
theorem part_append_drop
    (s : Bytes)
    (start size : Nat) :
    part s start size ++ s.drop (start + size) =
      s.drop start := by
  rw [part, ← List.drop_drop, List.take_append_drop]

/- The parts of a section end inside of it. -/
theorem part_end_le
    {n : Nat}
    (size : Nat)
    (i : Fin n) :
    i.val * size + size ≤ n * size := by
  have hEnd : (i.val + 1) * size ≤ n * size :=
    Nat.mul_le_mul_right size i.isLt
  rw [Nat.succ_mul] at hEnd
  exact hEnd

/- Strings of one size are found again in their sequence. -/
theorem part_flatten
    {size : Nat}
    {strings : List Bytes}
    (hSize : ∀ s ∈ strings, s.length = size)
    (i : Nat)
    (hi : i < strings.length) :
    part strings.flatten (i * size) size = strings[i] := by
  induction strings generalizing i with
  | nil => cases hi
  | cons first rest ih =>
      have hFirst : first.length = size :=
        hSize first List.mem_cons_self
      have hRest : ∀ s ∈ rest, s.length = size :=
        fun s hs => hSize s (List.mem_cons_of_mem _ hs)
      rw [List.flatten_cons]
      cases i with
      | zero =>
          rw [part, Nat.zero_mul, List.drop_zero]
          simp [← hFirst]
      | succ i =>
          have hDrop :
              (first ++ rest.flatten).drop size = rest.flatten := by
            simp [← hFirst]
          have hStart : (i + 1) * size = size + i * size := by
            ring
          rw [hStart, ← part_drop, hDrop]
          exact ih hRest i (Nat.lt_of_succ_lt_succ hi)

/- A byte string is the sequence of its parts. -/
theorem flatten_parts
    {n size : Nat}
    {s : Bytes}
    (hSize : s.length = n * size) :
    (List.ofFn fun i : Fin n =>
      part s (i.val * size) size).flatten = s := by
  induction n generalizing s with
  | zero =>
      have hNil : s = [] := by simpa using hSize
      simp [hNil]
  | succ n ih =>
      have hRest : (s.drop size).length = n * size := by
        rw [List.length_drop, hSize, Nat.succ_mul]
        omega
      have hParts :
          ∀ i : Fin n,
            part s (i.succ.val * size) size =
              part (s.drop size) (i.val * size) size := by
        intro i
        rw [part_drop, Fin.val_succ]
        congr 1
        ring
      rw [List.ofFn_succ, List.flatten_cons]
      simp only [hParts, ih hRest]
      simp [part]

------------------------------------------------------------
-- Codecs
------------------------------------------------------------

/-
  Packing has a value on the valid polynomials, and unpacking
  is its inverse: it accepts nothing but packed valid
  polynomials and refuses all other strings.
-/
structure IsCodec
    (size : Nat)
    (Valid : Poly → Prop)
    (pack : Poly → Outcome SchemeError Bytes)
    (unpack : Bytes → Outcome SchemeError Poly) : Prop where
  pack_returns :
    ∀ {p}, Valid p →
      Returns (pack p) fun s => s.length = size ∧ unpack s = .ok p
  unpack_decides :
    ∀ {s}, s.length = size →
      Decides (unpack s) fun p => Valid p ∧ pack p = .ok s

namespace IsCodec

variable {n size : Nat}
variable {Valid : Poly → Prop}
variable {pack : Poly → Outcome SchemeError Bytes}
variable {unpack : Bytes → Outcome SchemeError Poly}

/- Packed vectors are unpacked again. -/
theorem packVec_returns
    (h : IsCodec size Valid pack unpack)
    {v : PolyVec n}
    (hv : ∀ i : Fin n, Valid v[i]) :
    Returns (packVec pack v) fun s =>
      s.length = n * size ∧ unpackVec n size unpack s = .ok v := by
  rcases
    returns_mapEntries fun i : Fin n => h.pack_returns (hv i) with
    ⟨packed, hOk, hPacked⟩
  have hSizes : ∀ s ∈ packed.toList, s.length = size := by
    intro s hs
    rcases List.mem_iff_getElem.1 hs with ⟨i, hi, rfl⟩
    have hLt : i < n := by simpa using hi
    simpa using (hPacked ⟨i, hLt⟩).1
  have hLengths :
      packed.toList.map List.length = List.replicate n size := by
    rw [List.eq_replicate_iff]
    refine ⟨by simp, ?_⟩
    intro length hLength
    rcases List.mem_map.1 hLength with ⟨s, hs, rfl⟩
    exact hSizes s hs
  refine ⟨packed.toList.flatten, ?_, ?_, ?_⟩
  · rw [packVec, hOk]
    rfl
  · rw [List.length_flatten, hLengths, List.sum_replicate_nat]
  · rw [unpackVec, tabulate_eq_ok_iff]
    intro i
    have hPart :=
      part_flatten hSizes i.val (by simp)
    rw [hPart]
    simpa using (hPacked i).2

/- What is unpacked as a vector packs to the same string. -/
theorem unpackVec_decides
    (h : IsCodec size Valid pack unpack)
    {s : Bytes}
    (hSize : s.length = n * size) :
    Decides (unpackVec n size unpack s) fun v =>
      (∀ i : Fin n, Valid v[i]) ∧ packVec pack v = .ok s := by
  have hPart :
      ∀ i : Fin n,
        (part s (i.val * size) size).length = size := by
    intro i
    apply length_part
    rw [hSize]
    exact part_end_le size i
  have hEntries :=
    ends_tabulate fun i : Fin n => h.unpack_decides (hPart i)
  refine hEntries.mono ?_
  intro v hv
  refine ⟨fun i => (hv i).1, ?_⟩
  have hPacked :
      mapEntries pack v =
        .ok (Vector.ofFn fun i : Fin n =>
          part s (i.val * size) size) := by
    rw [mapEntries_eq_ok_iff]
    intro i
    simpa using (hv i).2
  rw [packVec, hPacked]
  refine congrArg Except.ok ?_
  rw [Vector.toList_ofFn]
  exact flatten_parts hSize

end IsCodec

/- A vector is unpacked where all strings of its parts are. -/
theorem unpackVec_returns
    {n size : Nat}
    {P : Poly → Prop}
    {unpack : Bytes → Outcome SchemeError Poly}
    {s : Bytes}
    (hUnpack : ∀ {s}, s.length = size → Returns (unpack s) P)
    (hSize : n * size ≤ s.length) :
    Returns (unpackVec n size unpack s) fun v =>
      ∀ i : Fin n, P v[i] := by
  apply returns_tabulate
  intro i
  apply hUnpack
  exact length_part ((part_end_le size i).trans hSize)

/- A vector is unpacked from the front of a string. -/
theorem unpackVec_append
    {n size : Nat}
    {unpack : Bytes → Outcome SchemeError Poly}
    {s : Bytes}
    (hSize : s.length = n * size)
    (rest : Bytes) :
    unpackVec n size unpack (s ++ rest) =
      unpackVec n size unpack s := by
  unfold unpackVec
  refine congrArg tabulate (funext fun i => ?_)
  rw [part_append]
  rw [hSize]
  exact part_end_le size i

/- A vector at the front of a string is unpacked and packed. -/
theorem IsCodec.unpackVec_take_decides
    {n size : Nat}
    {Valid : Poly → Prop}
    {pack : Poly → Outcome SchemeError Bytes}
    {unpack : Bytes → Outcome SchemeError Poly}
    (h : IsCodec size Valid pack unpack)
    {s : Bytes}
    (hSize : n * size ≤ s.length) :
    Decides (unpackVec n size unpack s) fun v =>
      (∀ i : Fin n, Valid v[i])
        ∧ packVec pack v = .ok (s.take (n * size)) := by
  have hTake : (s.take (n * size)).length = n * size := by
    rw [List.length_take]
    omega
  have hSplit :
      unpackVec n size unpack
          (s.take (n * size) ++ s.drop (n * size)) =
        unpackVec n size unpack (s.take (n * size)) :=
    unpackVec_append hTake (s.drop (n * size))
  rw [List.take_append_drop] at hSplit
  rw [hSplit]
  exact h.unpackVec_decides hTake

end Encoding

end LatticeSignature
