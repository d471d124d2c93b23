import LatticeSignature.Rounding.Buckets

/-
  The three parameter sets of the scheme and the sizes that
  follow from them.

  Main declarations:
    * `ParameterSet`
    * `ParameterSet.rows`, `ParameterSet.columns`
    * `ParameterSet.eta`, `ParameterSet.tau`
    * `ParameterSet.gamma1`, `ParameterSet.buckets`
    * `ParameterSet.publicKeyBytes`
    * `ParameterSet.secretKeyBytes`
    * `ParameterSet.signatureBytes`
-/

------------------------------------------------------------
-- Sizes Common to All Parameter Sets
------------------------------------------------------------

namespace LatticeSignature

/- The number of coefficients of a polynomial. -/
abbrev degree : Nat :=
  256

/- The number of bytes of a seed. -/
def seedBytes : Nat :=
  32

/- The number of bytes of a mask seed or of a message digest. -/
def digestBytes : Nat :=
  64

/- The number of bytes of a public key digest. -/
def keyDigestBytes : Nat :=
  64

/- The number of random bytes that a signature mixes in. -/
def randomizerBytes : Nat :=
  32

/- The greatest number of bytes of a context. -/
def maxContextBytes : Nat :=
  255

/- The number of bytes of a polynomial with packed fields. -/
def packedBytes
    (width : Nat) : Nat :=
  (degree * width + 7) / 8

/- The width of a packed high part of a public key. -/
def highPartBits : Nat :=
  10

------------------------------------------------------------
-- Parameter Sets
------------------------------------------------------------

/- The parameter sets, by the security level they aim at. -/
inductive ParameterSet where
  | mldsa44
  | mldsa65
  | mldsa87
deriving DecidableEq, Repr

namespace ParameterSet

/- The name of the parameter set. -/
def name : ParameterSet → String
  | .mldsa44 => "ML-DSA-44"
  | .mldsa65 => "ML-DSA-65"
  | .mldsa87 => "ML-DSA-87"

/- The number of rows of the public matrix. -/
def rows : ParameterSet → Nat
  | .mldsa44 => 4
  | .mldsa65 => 6
  | .mldsa87 => 8

/- The number of columns of the public matrix. -/
def columns : ParameterSet → Nat
  | .mldsa44 => 4
  | .mldsa65 => 5
  | .mldsa87 => 7

/- The bound of a secret coefficient. -/
def eta : ParameterSet → Nat
  | .mldsa44 => 2
  | .mldsa65 => 4
  | .mldsa87 => 2

/- The number of nonzero coefficients of a challenge. -/
def tau : ParameterSet → Nat
  | .mldsa44 => 39
  | .mldsa65 => 49
  | .mldsa87 => 60

/- The bound of a challenge times a secret. -/
def beta
    (p : ParameterSet) : Nat :=
  p.tau * p.eta

/- The bound of a mask coefficient. -/
def gamma1 : ParameterSet → Nat
  | .mldsa44 => 131072
  | .mldsa65 => 524288
  | .mldsa87 => 524288

/- The buckets of the commitment. -/
def buckets : ParameterSet → Rounding.Buckets
  | .mldsa44 => .fortyFour
  | .mldsa65 => .sixteen
  | .mldsa87 => .sixteen

/- Half of the width of a commitment bucket. -/
def gamma2
    (p : ParameterSet) : Int :=
  p.buckets.halfWidth

/- The greatest number of hints in a signature. -/
def omega : ParameterSet → Nat
  | .mldsa44 => 80
  | .mldsa65 => 55
  | .mldsa87 => 75

/- The number of bytes of a challenge seed. -/
def challengeBytes : ParameterSet → Nat
  | .mldsa44 => 32
  | .mldsa65 => 48
  | .mldsa87 => 64

------------------------------------------------------------
-- Packed Sizes
------------------------------------------------------------

/- The width of a packed mask or response coefficient. -/
def responseBits : ParameterSet → Nat
  | .mldsa44 => 18
  | .mldsa65 => 20
  | .mldsa87 => 20

/- The width of a packed commitment bucket. -/
def commitmentBits : ParameterSet → Nat
  | .mldsa44 => 6
  | .mldsa65 => 4
  | .mldsa87 => 4

/- The width of a packed secret coefficient. -/
def secretBits : ParameterSet → Nat
  | .mldsa44 => 3
  | .mldsa65 => 4
  | .mldsa87 => 3

/- The number of bytes of a packed response polynomial. -/
def responsePolyBytes
    (p : ParameterSet) : Nat :=
  packedBytes p.responseBits

/- The number of bytes of a packed commitment polynomial. -/
def commitmentPolyBytes
    (p : ParameterSet) : Nat :=
  packedBytes p.commitmentBits

/- The number of bytes of a packed secret polynomial. -/
def secretPolyBytes
    (p : ParameterSet) : Nat :=
  packedBytes p.secretBits

/- The number of bytes of the hint section. -/
def hintBytes
    (p : ParameterSet) : Nat :=
  p.omega + p.rows

/- The number of bytes of a public key. -/
def publicKeyBytes
    (p : ParameterSet) : Nat :=
  seedBytes + p.rows * packedBytes highPartBits

/- The number of bytes of a secret key. -/
def secretKeyBytes
    (p : ParameterSet) : Nat :=
  2 * seedBytes + keyDigestBytes
    + (p.columns + p.rows) * p.secretPolyBytes
    + p.rows * packedBytes Rounding.droppedBits

/- The number of bytes of a signature. -/
def signatureBytes
    (p : ParameterSet) : Nat :=
  p.challengeBytes + p.columns * p.responsePolyBytes
    + p.hintBytes

/- The sizes of secret keys tell the parameter sets apart. -/
theorem secretKeyBytes_eq
    (p : ParameterSet) :
    p.secretKeyBytes =
      match p with
      | .mldsa44 => 2560
      | .mldsa65 => 4032
      | .mldsa87 => 4896 := by
  cases p <;> rfl

/- So do the sizes of signatures. -/
theorem signatureBytes_eq
    (p : ParameterSet) :
    p.signatureBytes =
      match p with
      | .mldsa44 => 2420
      | .mldsa65 => 3309
      | .mldsa87 => 4627 := by
  cases p <;> rfl

end ParameterSet

end LatticeSignature
