import LatticeSignature.Bits
import LatticeSignature.Ring.Poly

/-
  A polynomial is packed as one bit string: the fields of its
  coefficients follow each other, least significant bit first,
  without regard to byte ends.

  Main declarations:
    * `Packing.checkWidth`
    * `Packing.field`
    * `Packing.pack`
    * `Packing.unpack`
-/

------------------------------------------------------------
-- Packing and Unpacking
------------------------------------------------------------

namespace LatticeSignature

open scoped Powers

namespace Packing

/- The greatest width of a field. -/
def maxWidth : Nat :=
  24

/- Refuse a width that no field has. -/
def checkWidth
    (width : Nat) : Outcome PrimitiveError Unit :=
  PrimitiveError.checkParameter
    (0 < width && width ≤ maxWidth)
    "bits_per_coeff"
    "must be in range [1, 24]"

/- Refuse a width, or a space of another size than it needs. -/
def checkSpace
    (width space : Nat) : Outcome PrimitiveError Unit := do
  checkWidth width
  PrimitiveError.checkLength
    "packed polynomial"
    (packedBytes width)
    space

/- The number in the `width` low bits of a coefficient. -/
def field
    (width : Nat)
    (c : Int) : Nat :=
  (c % 2 ^ width).toNat

/- The bit string of a packed polynomial. -/
def bits
    (width : Nat)
    (p : Poly) : Bits :=
  (p.toList.map (field width)).flatMap (Bits.ofNat width)

/- Pack the low bits of every coefficient into `space` bytes. -/
def pack
    (width space : Nat)
    (p : Poly) : Outcome PrimitiveError Bytes := do
  checkSpace width space
  return Bits.toBytes (bits width p)

/-
  The polynomial whose coefficients are the fields of a bit
  string.
-/
def ofBits
    (width : Nat)
    (s : Bits) : Poly :=
  ⟨((Bits.fields width degree s).map Int.ofNat).toArray,
    by simp⟩

/- Unpack 256 fields of the given width. -/
def unpack
    (width : Nat)
    (bytes : Bytes) : Outcome PrimitiveError Poly := do
  checkSpace width bytes.length
  return ofBits width (Bits.ofBytes bytes)

end Packing

end LatticeSignature
