import LatticeSignature.Indexing

/-
  Byte strings, and the numbers that they hold with the least
  significant byte first.

  Main declarations:
    * `Bytes`
    * `Bytes.ofNatLE`
    * `Bytes.toNatLE`
    * `Bytes.toNatLE_ofNatLE`
-/

------------------------------------------------------------
-- Byte Strings
------------------------------------------------------------

namespace LatticeSignature

open scoped Powers

/- A finite string of bytes. -/
abbrev Bytes :=
  List UInt8

namespace Bytes

/- The `count` low bytes of a number, least one first. -/
def ofNatLE : Nat → Nat → Bytes
  | 0, _ => []
  | count + 1, n =>
      UInt8.ofNat n :: ofNatLE count (n / 256)

/- The number whose bytes are given, least one first. -/
def toNatLE : Bytes → Nat
  | [] => 0
  | b :: rest => b.toNat + 256 * toNatLE rest

@[simp] theorem length_ofNatLE
    (count n : Nat) :
    (ofNatLE count n).length = count := by
  induction count generalizing n with
  | zero => rfl
  | succ count ih => simp [ofNatLE, ih]

/- Reading gives back what was written, less the high bytes. -/
theorem toNatLE_ofNatLE
    (count n : Nat) :
    toNatLE (ofNatLE count n) = n % 256 ^ count := by
  induction count generalizing n with
  | zero => simp [ofNatLE, toNatLE, Nat.mod_one]
  | succ count ih =>
      have hPow : 256 ^ (count + 1) = 256 * 256 ^ count :=
        Nat.pow_succ'
      simp only [ofNatLE, toNatLE, ih, UInt8.toNat_ofNat']
      rw [hPow, Nat.mod_mul]

theorem toNatLE_lt
    (bytes : Bytes) :
    toNatLE bytes < 256 ^ bytes.length := by
  induction bytes with
  | nil => simp [toNatLE]
  | cons b rest ih =>
      have hPow :
          256 ^ (rest.length + 1) = 256 * 256 ^ rest.length :=
        Nat.pow_succ'
      have hByte := b.toNat_lt
      simp only [toNatLE, List.length_cons, hPow]
      omega

end Bytes

end LatticeSignature
