import LatticeSignature.Proofs.Encoding.BitReader
import LatticeSignature.Proofs.Encoding.BitWriter

/-
  The laws of packing, which hold for the writer and for the
  reader: the bit string of a polynomial, that packing and
  unpacking undo each other, and what is refused.

  Main declarations:
    * `Packing.bit_bytes`
    * `Packing.ofBits_bytes_mod`
    * `Packing.packing_laws`
-/

------------------------------------------------------------
-- Bits and Remainders
------------------------------------------------------------

namespace LatticeSignature

open Outcome Access Buffered

namespace Packing

/- The fields of a polynomial follow each other bit by bit. -/
theorem bit_bytes
    {width place : Nat}
    (p : Poly)
    (i : Fin degree)
    (hWidth : width ≤ 32)
    (hPlace : place < width) :
    (bytes width p).bit (i * width + place) =
      (BitVec.ofInt 32 p[i]).getLsbD place := by
  have hField :
      (p.toList.map (field width))[i.val]? =
        some (field width p[i]) := by
    simp
  apply Bytes.bit_eq
  rw [ofBytes_bytes, bits, Bits.getElem?_flatMap_ofNat _ _ hPlace,
    hField, ← testBit_field p[i] hWidth hPlace]
  rfl

/- Unpacking finds the remainders of the coefficients. -/
theorem ofBits_bytes_mod
    (width : Nat)
    (p : Poly)
    (i : Fin degree) :
    (ofBits width (Bits.ofBytes (bytes width p)))[i] =
      p[i] % 2 ^ width := by
  rw [ofBytes_bytes, ofBits_bits_eq_map]
  simp

------------------------------------------------------------
-- Laws of Packing
------------------------------------------------------------

theorem packedBytes_eq
    (width : Nat) :
    packedBytes width = 32 * width := by
  unfold packedBytes degree
  omega

/-
  A polynomial is packed into a buffer as the bit string of
  the two's complements of its coefficients, and unpacked
  again as their remainders.  Every string of the right size
  is the packed form of what is unpacked from it.  All other
  widths and sizes are refused, and the buffer stays as it is.
-/
theorem packing_laws
    (width : Nat)
    (p : Poly)
    (s buffer : Bytes) :
    (1 ≤ width ∧ width ≤ 24 →
      buffer.length = 32 * width →
      ∃ out : Bytes,
        Leaves (packInto width p) buffer (.ok ()) out
          ∧ pack width buffer.length p = .ok out
          ∧ out.length = 32 * width
          ∧ (∀ (i : Fin degree) (j : Nat), j < width →
            out.bit (i * width + j) =
              (BitVec.ofInt 32 p[i]).getLsbD j)
          ∧ ∃ r : Poly,
            Runs (unpackFrom width out) (.ok r)
              ∧ unpack width out = .ok r
              ∧ ∀ i : Fin degree, r[i] = p[i] % 2 ^ width)
      ∧ (1 ≤ width ∧ width ≤ 24 →
        s.length = 32 * width →
        buffer.length = 32 * width →
        ∃ r : Poly,
          Runs (unpackFrom width s) (.ok r)
            ∧ unpack width s = .ok r
            ∧ Leaves (packInto width r) buffer (.ok ()) s
            ∧ pack width buffer.length r = .ok s)
      ∧ (¬ ((1 ≤ width ∧ width ≤ 24)
          ∧ buffer.length = 32 * width) →
        ∃ cause : PrimitiveError,
          Leaves (packInto width p) buffer (fail cause) buffer
            ∧ pack width buffer.length p = fail cause
            ∧ Runs (unpackFrom width buffer) (fail cause)
            ∧ unpack width buffer = fail cause) := by
  have hReader := unpackFrom_runs width
  rw [← packedBytes_eq]
  refine ⟨?_, ?_, ?_⟩
  · intro hWidth hSize
    have hUnpack :=
      unpack_eq_ok hWidth (length_bytes width p)
    refine ⟨bytes width p, packInto_leaves p hWidth hSize, ?_,
      length_bytes width p, ?_, ?_⟩
    · rw [hSize]
      exact pack_eq_ok hWidth p
    · intro i j hj
      exact bit_bytes p i (by omega) hj
    · exact
        ⟨_, (hReader _).congr hUnpack, hUnpack,
          ofBits_bytes_mod width p⟩
  · intro hWidth hString hSize
    have hUnpack := unpack_eq_ok hWidth hString
    have hSame :
        bytes width (ofBits width (Bits.ofBytes s)) = s :=
      bytes_ofBits hString
    have hWritten :=
      packInto_leaves (ofBits width (Bits.ofBytes s)) hWidth hSize
    have hPacked :=
      pack_eq_ok hWidth (ofBits width (Bits.ofBytes s))
    rw [hSame] at hWritten hPacked
    rw [← hSize] at hPacked
    exact
      ⟨_, (hReader _).congr hUnpack, hUnpack, hWritten, hPacked⟩
  · intro hWrong
    have hRefused := checkSpace_refuses hWrong
    have hUnpack :
        unpack width buffer =
          fail (refusal width buffer.length) := by
      rw [unpack, hRefused]
      rfl
    refine
      ⟨_, packInto_refuses p hRefused, ?_,
        (hReader _).congr hUnpack, hUnpack⟩
    rw [pack, hRefused]
    rfl

/-
  The coefficient `-1` sets all bits of its field, and a
  buffer that is too small stays as it is.
-/
theorem packing_laws_of_ones :
    (∃ out : Bytes,
      Leaves
          (packInto 13 (Vector.replicate degree (-1)))
          (List.replicate 416 0) (.ok ()) out
        ∧ out.bit 12 = true)
      ∧ ∃ cause : PrimitiveError,
        Leaves (packInto 13 (Vector.replicate degree (-1)))
          (List.replicate 415 0) (fail cause)
          (List.replicate 415 0) := by
  constructor
  · rcases
      (packing_laws 13 (Vector.replicate degree (-1)) []
        (List.replicate 416 0)).1 (by decide)
        List.length_replicate with
      ⟨out, hLeaves, _, _, hBits, _⟩
    refine ⟨out, hLeaves, (hBits 0 12 (by decide)).trans ?_⟩
    simp
  · rcases
      (packing_laws 13 (Vector.replicate degree (-1)) []
        (List.replicate 415 0)).2.2 (by
          rw [List.length_replicate]
          decide) with
      ⟨cause, hLeaves, _⟩
    exact ⟨cause, hLeaves⟩

end Packing

end LatticeSignature
