import LatticeSignature.Indexing

/-
  The field of 256 elements that the cipher computes in, and
  its substitution of bytes: the inverse in the field followed
  by an affine map.

  Main declarations:
    * `Aes.double`
    * `Aes.multiply`
    * `Aes.inverse`
    * `Aes.substitute`
-/

------------------------------------------------------------
-- Field of 256 Elements
------------------------------------------------------------

namespace LatticeSignature

namespace Aes

/- Multiply by the element `x`. -/
def double
    (a : UInt8) : UInt8 :=
  if a < 0x80 then a <<< 1 else (a <<< 1) ^^^ 0x1B

/- Multiply by the polynomial in the `bits` low bits of `b`. -/
def multiplyBits : Nat → UInt8 → UInt8 → UInt8
  | 0, _, _ => 0
  | bits + 1, a, b =>
      (if b &&& 1 = 1 then a else 0)
        ^^^ multiplyBits bits (double a) (b >>> 1)

/- The product of two elements. -/
def multiply
    (a b : UInt8) : UInt8 :=
  multiplyBits 8 a b

/- The power of an element. -/
def power
    (a : UInt8) : Nat → UInt8
  | 0 => 1
  | n + 1 => multiply a (power a n)

/- The inverse of an element; zero is kept. -/
def inverse
    (a : UInt8) : UInt8 :=
  power a 254

/- Move the bits of a byte up and around. -/
def rotateByte
    (a : UInt8)
    (places : UInt8) : UInt8 :=
  (a <<< places) ||| (a >>> (8 - places))

/- The affine map of the substitution. -/
def affine
    (a : UInt8) : UInt8 :=
  a ^^^ rotateByte a 1 ^^^ rotateByte a 2
    ^^^ rotateByte a 3 ^^^ rotateByte a 4 ^^^ 0x63

/- The substitution of all bytes, by value. -/
def substitutions : Vector UInt8 256 :=
  Vector.ofFn fun a => affine (inverse (UInt8.ofNat a.val))

/- The byte that replaces a byte. -/
def substitute
    (a : UInt8) : UInt8 :=
  substitutions[a.toFin]

end Aes

end LatticeSignature
