import LatticeSignature.Proofs.Outcome
import LatticeSignature.Ring.Packing
import Mathlib.Tactic.Positivity
import Mathlib.Tactic.Zify

/-
  Packing and unpacking are inverse to each other on the
  polynomials whose coefficients fit into their fields.

  Main declarations:
    * `Packing.FitsWidth`
    * `Packing.ofBits_bits`, `Packing.bits_ofBits`
    * `Packing.checkSpace_eq_ok`, `Packing.checkSpace_refuses`
    * `Packing.pack_eq_ok`
    * `Packing.unpack_eq_ok`
-/

------------------------------------------------------------
-- Fields of Coefficients
------------------------------------------------------------

namespace LatticeSignature

/- A field is a number of the width of the fields. -/
theorem Bits.lt_of_mem_fields
    {width count n : Nat}
    {s : Bits}
    (h : n ∈ Bits.fields width count s) :
    n < 2 ^ width := by
  induction count generalizing s with
  | zero => cases h
  | succ count ih =>
      rw [Bits.fields, List.mem_cons] at h
      rcases h with rfl | hRest
      · refine (Bits.toNat_lt _).trans_le ?_
        apply Nat.pow_le_pow_right (by decide)
        rw [List.length_take]
        exact Nat.min_le_left _ _
      · exact ih hRest

namespace Packing

open Outcome

/- The coefficients are numbers of the given width. -/
def FitsWidth
    (width : Nat)
    (p : Poly) : Prop :=
  ∀ i : Fin degree, 0 ≤ p[i] ∧ p[i] < 2 ^ width

instance
    (width : Nat)
    (p : Poly) :
    Decidable (FitsWidth width p) := by
  unfold FitsWidth
  infer_instance

/- A number is cut to the width of a field. -/
theorem field_ofNat
    (width n : Nat) :
    field width (Int.ofNat n) = n % 2 ^ width := by
  unfold field
  rw [Int.ofNat_eq_natCast]
  norm_cast

/- A field has no bits beyond its width. -/
theorem field_mod
    (width : Nat)
    (c : Int) :
    field width c % 2 ^ width = field width c := by
  have hPos : (0 : Int) < 2 ^ width := by positivity
  have hLower := Int.emod_nonneg c hPos.ne'
  have hUpper := Int.emod_lt_of_pos c hPos
  apply Nat.mod_eq_of_lt
  unfold field
  zify
  rw [Int.toNat_of_nonneg hLower]
  exact hUpper

------------------------------------------------------------
-- Bit Strings of Polynomials
------------------------------------------------------------

/- All coefficients have fields of one width. -/
theorem length_bits
    (width : Nat)
    (p : Poly) :
    (bits width p).length = degree * width := by
  simp only [bits, List.length_flatMap, List.map_map,
    Function.comp_def, Bits.length_ofNat, List.map_const',
    Vector.length_toList, List.sum_replicate, Nat.nsmul_eq_mul]

/- The coefficients are the fields, in order. -/
theorem toList_ofBits
    (width : Nat)
    (s : Bits) :
    (ofBits width s).toList =
      (Bits.fields width degree s).map Int.ofNat :=
  rfl

/- The fields of a bit string have their width. -/
theorem fitsWidth_ofBits
    (width : Nat)
    (s : Bits) :
    FitsWidth width (ofBits width s) := by
  intro i
  have hMem :
      (ofBits width s)[i] ∈
        (Bits.fields width degree s).map Int.ofNat := by
    rw [← toList_ofBits]
    simp
  rcases List.mem_map.1 hMem with ⟨n, hn, hEq⟩
  rw [← hEq, Int.ofNat_eq_natCast]
  refine ⟨Int.natCast_nonneg n, ?_⟩
  exact_mod_cast Bits.lt_of_mem_fields hn

/- A packed polynomial is found again, up to high bits. -/
theorem ofBits_bits_eq_map
    (width : Nat)
    (p : Poly) :
    ofBits width (bits width p) = p.map (· % 2 ^ width) := by
  have hFields :=
    Bits.fields_flatMap_ofNat width (p.toList.map (field width))
  rw [List.length_map, Vector.length_toList, List.map_map]
    at hFields
  apply Vector.toList_inj.1
  rw [toList_ofBits, bits, hFields, Vector.toList_map,
    List.map_map]
  apply List.map_congr_left
  intro c _
  have hPos : (2 : Int) ^ width ≠ 0 := by positivity
  simp only [Function.comp_apply, field_mod]
  exact Int.toNat_of_nonneg (Int.emod_nonneg c hPos)

/- Coefficients that fit are read back. -/
theorem ofBits_bits
    {width : Nat}
    {p : Poly}
    (h : FitsWidth width p) :
    ofBits width (bits width p) = p := by
  rw [ofBits_bits_eq_map]
  apply Vector.ext
  intro i hi
  rw [Vector.getElem_map]
  rcases h ⟨i, hi⟩ with ⟨hLower, hUpper⟩
  exact Int.emod_eq_of_lt hLower hUpper

/- A bit string is found again from its fields. -/
theorem bits_ofBits
    {width : Nat}
    {s : Bits}
    (hLength : s.length = degree * width) :
    bits width (ofBits width s) = s := by
  rw [bits, toList_ofBits, List.map_map]
  have hMap :
      (Bits.fields width degree s).map (field width ∘ Int.ofNat) =
        Bits.fields width degree s := by
    conv_rhs => rw [← List.map_id (Bits.fields width degree s)]
    apply List.map_congr_left
    intro n hn
    rw [Function.comp_apply, field_ofNat, id,
      Nat.mod_eq_of_lt (Bits.lt_of_mem_fields hn)]
  rw [hMap]
  exact Bits.flatMap_ofNat_fields width degree s hLength

------------------------------------------------------------
-- Byte Strings of Polynomials
------------------------------------------------------------

/- The widths that fields have. -/
def IsWidth
    (width : Nat) : Prop :=
  0 < width ∧ width ≤ maxWidth

/- The space that a width asks for is accepted. -/
theorem checkSpace_eq_ok
    {width : Nat}
    (hWidth : IsWidth width) :
    checkSpace width (packedBytes width) = .ok () := by
  have hCheck : (0 < width && width ≤ maxWidth) = true := by
    simp [hWidth.1, hWidth.2]
  have hSize : (packedBytes width == packedBytes width) = true :=
    BEq.rfl
  simp only [checkSpace, checkWidth,
    PrimitiveError.checkParameter, PrimitiveError.checkLength,
    require_bind hCheck, hSize]
  rfl

/- What is wrong with a width, or else with a space. -/
def refusal
    (width space : Nat) : PrimitiveError :=
  if 0 < width ∧ width ≤ maxWidth then
    .length "packed polynomial" (packedBytes width) space
  else
    .parameter "bits_per_coeff" "must be in range [1, 24]"

/- Any other space or width is refused, with one cause. -/
theorem checkSpace_refuses
    {width space : Nat}
    (h : ¬ (IsWidth width ∧ space = packedBytes width)) :
    checkSpace width space = fail (refusal width space) := by
  unfold checkSpace checkWidth refusal
  unfold PrimitiveError.checkParameter PrimitiveError.checkLength
  by_cases hWidth : 0 < width ∧ width ≤ maxWidth
  · have hSize : (space == packedBytes width) = false :=
      beq_false_of_ne fun hSame => h ⟨hWidth, hSame⟩
    rw [if_pos hWidth, require_bind (by simpa using hWidth), hSize]
    rfl
  · rw [if_neg hWidth, ← Bool.decide_and, decide_eq_false hWidth]
    rfl

/- A polynomial fills its space with whole bytes. -/
theorem packedBytes_mul_eight
    (width : Nat) :
    packedBytes width * 8 = degree * width := by
  unfold packedBytes degree
  omega

/- The bytes of a polynomial. -/
def bytes
    (width : Nat)
    (p : Poly) : Bytes :=
  Bits.toBytes (bits width p)

/- A packed polynomial fills its space. -/
theorem length_bytes
    (width : Nat)
    (p : Poly) :
    (bytes width p).length = packedBytes width := by
  have hSize := packedBytes_mul_eight width
  have hBits := length_bits width p
  rw [bytes, Bits.length_toBytes _ (by omega)]
  omega

/- Packing succeeds for every polynomial. -/
theorem pack_eq_ok
    {width : Nat}
    (hWidth : IsWidth width)
    (p : Poly) :
    pack width (packedBytes width) p = .ok (bytes width p) := by
  rw [pack, checkSpace_eq_ok hWidth]
  rfl

/- Unpacking succeeds for every string of the right size. -/
theorem unpack_eq_ok
    {width : Nat}
    {s : Bytes}
    (hWidth : IsWidth width)
    (hSize : s.length = packedBytes width) :
    unpack width s = .ok (ofBits width (Bits.ofBytes s)) := by
  rw [unpack, hSize, checkSpace_eq_ok hWidth]
  rfl

/- The bytes of a polynomial have the bits of it. -/
theorem ofBytes_bytes
    (width : Nat)
    (p : Poly) :
    Bits.ofBytes (bytes width p) = bits width p := by
  have hSize := packedBytes_mul_eight width
  have hBits := length_bits width p
  exact Bits.ofBytes_toBytes _ (by omega)

/- The bytes of a polynomial hold its coefficients. -/
theorem ofBits_bytes
    {width : Nat}
    {p : Poly}
    (h : FitsWidth width p) :
    ofBits width (Bits.ofBytes (bytes width p)) = p := by
  rw [ofBytes_bytes, ofBits_bits h]

/- Every byte string of the right size packs a polynomial. -/
theorem bytes_ofBits
    {width : Nat}
    {s : Bytes}
    (hSize : s.length = packedBytes width) :
    bytes width (ofBits width (Bits.ofBytes s)) = s := by
  have hWhole := packedBytes_mul_eight width
  rw [bytes, bits_ofBits, Bits.toBytes_ofBytes]
  rw [Bits.length_ofBytes, hSize]
  omega

end Packing

end LatticeSignature
