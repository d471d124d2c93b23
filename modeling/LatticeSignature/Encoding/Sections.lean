import LatticeSignature.Bytes
import LatticeSignature.Error.Scheme
import LatticeSignature.Ring.PolyVec

/-
  Sections of a byte string that hold packed vectors, one
  polynomial after the other.

  Main declarations:
    * `Encoding.part`
    * `Encoding.packVec`
    * `Encoding.unpackVec`
    * `Encoding.block`
-/

------------------------------------------------------------
-- Sections
------------------------------------------------------------

namespace LatticeSignature

namespace Encoding

/- The bytes of a section, by its start and its size. -/
def part
    (bytes : Bytes)
    (start size : Nat) : Bytes :=
  (bytes.drop start).take size

/- A section of a byte string that is long enough for it. -/
def block
    (bytes : Bytes)
    (start size : Nat)
    (hSize : start + size ≤ bytes.length) : Vector UInt8 size :=
  ⟨(part bytes start size).toArray, by
    simp [part]
    omega⟩

/- Pack the polynomials of a vector in a row. -/
def packVec
    {n : Nat}
    (pack : Poly → Outcome SchemeError Bytes)
    (v : PolyVec n) : Outcome SchemeError Bytes := do
  let packed ← Outcome.mapEntries pack v
  return packed.toList.flatten

/- Unpack polynomials of `size` bytes each, in a row. -/
def unpackVec
    (n size : Nat)
    (unpack : Bytes → Outcome SchemeError Poly)
    (bytes : Bytes) : Outcome SchemeError (PolyVec n) :=
  Outcome.tabulate fun i =>
    unpack (part bytes (i.val * size) size)

end Encoding

end LatticeSignature
