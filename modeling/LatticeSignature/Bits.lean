import LatticeSignature.Bytes

/-
  Bit strings with the least significant bit first.  Numbers
  of a fixed width, and bytes, are views of the same bits.

  Main declarations:
    * `Bits`
    * `Bits.ofNat`, `Bits.toNat`
    * `Bits.ofBytes`, `Bits.toBytes`
    * `Bits.fields`
    * `Bits.toNat_ofNat`, `Bits.ofNat_toNat`
    * `Bits.toBytes_ofBytes`, `Bits.ofBytes_toBytes`
    * `Bits.fields_flatMap_ofNat`
-/

------------------------------------------------------------
-- Numbers of a Fixed Width
------------------------------------------------------------

namespace LatticeSignature

open scoped Powers

/- A bit string, least significant bit first. -/
abbrev Bits :=
  List Bool

namespace Bits

/- The `width` low bits of a number. -/
def ofNat : Nat → Nat → Bits
  | 0, _ => []
  | width + 1, n => (n % 2 == 1) :: ofNat width (n / 2)

/- The number with the given bits. -/
def toNat : Bits → Nat
  | [] => 0
  | bit :: rest => (if bit then 1 else 0) + 2 * toNat rest

@[simp] theorem length_ofNat
    (width n : Nat) :
    (ofNat width n).length = width := by
  induction width generalizing n with
  | zero => rfl
  | succ width ih => simp [ofNat, ih]

/- A number keeps its low bits. -/
theorem toNat_ofNat
    (width n : Nat) :
    toNat (ofNat width n) = n % 2 ^ width := by
  induction width generalizing n with
  | zero => simp [ofNat, toNat, Nat.mod_one]
  | succ width ih =>
      have hPow : 2 ^ (width + 1) = 2 * 2 ^ width :=
        Nat.pow_succ'
      simp only [ofNat, toNat, ih]
      rw [hPow, Nat.mod_mul]
      congr 1
      rcases Nat.mod_two_eq_zero_or_one n with h | h <;>
        simp [h]

/- The bits of a number are those that made it. -/
theorem ofNat_toNat
    (bits : Bits) :
    ofNat bits.length (toNat bits) = bits := by
  induction bits with
  | nil => rfl
  | cons bit rest ih =>
      have hHalf :
          ((if bit then 1 else 0) + 2 * toNat rest) / 2 =
            toNat rest := by
        split <;> omega
      simp only [List.length_cons, ofNat, toNat, hHalf, ih]
      cases bit
      · simp
      · simp

theorem toNat_lt
    (bits : Bits) :
    toNat bits < 2 ^ bits.length := by
  have h := toNat_ofNat bits.length (toNat bits)
  rw [ofNat_toNat] at h
  rw [h]
  exact Nat.mod_lt _ (Nat.two_pow_pos _)

------------------------------------------------------------
-- Bytes
------------------------------------------------------------

/- The bits of a byte string. -/
def ofBytes
    (bytes : Bytes) : Bits :=
  bytes.flatMap fun b => ofNat 8 b.toNat

/-
  The bytes of a bit string.  Fewer than eight bits at the end
  are left out.
-/
def toBytes : Bits → Bytes
  | b₀ :: b₁ :: b₂ :: b₃ :: b₄ :: b₅ :: b₆ :: b₇ :: rest =>
      UInt8.ofNat (toNat [b₀, b₁, b₂, b₃, b₄, b₅, b₆, b₇])
        :: toBytes rest
  | _ => []

@[simp] theorem length_ofBytes
    (bytes : Bytes) :
    (ofBytes bytes).length = 8 * bytes.length := by
  induction bytes with
  | nil => rfl
  | cons b rest ih =>
      simp only [ofBytes, List.flatMap_cons, List.length_append,
        length_ofNat, List.length_cons] at ih ⊢
      omega

/- Eight bits in front of a string make its first byte. -/
theorem toBytes_ofNat_append
    (n : Nat)
    (rest : Bits) :
    toBytes (ofNat 8 n ++ rest) =
      UInt8.ofNat (toNat (ofNat 8 n)) :: toBytes rest :=
  rfl

/- A byte string is found again from its bits. -/
theorem toBytes_ofBytes
    (bytes : Bytes) :
    toBytes (ofBytes bytes) = bytes := by
  induction bytes with
  | nil => rfl
  | cons b rest ih =>
      have hByte :
          UInt8.ofNat (toNat (ofNat 8 b.toNat)) = b := by
        rw [toNat_ofNat, Nat.mod_eq_of_lt b.toNat_lt]
        exact UInt8.ofNat_toNat
      simp only [ofBytes, List.flatMap_cons] at ih ⊢
      rw [toBytes_ofNat_append, hByte, ih]

/- The bits of a byte made of eight bits. -/
theorem ofNat_eight_ofNat_toNat
    (bits : Bits)
    (hEight : bits.length = 8) :
    ofNat 8 (UInt8.ofNat (toNat bits)).toNat = bits := by
  have hLt := toNat_lt bits
  have hBits := ofNat_toNat bits
  rw [hEight] at hLt hBits
  rw [UInt8.toNat_ofNat', Nat.mod_eq_of_lt hLt, hBits]

/- A string of whole bytes keeps all its bits. -/
theorem ofBytes_toBytes
    (bits : Bits)
    (hWhole : bits.length % 8 = 0) :
    ofBytes (toBytes bits) = bits := by
  fun_induction toBytes bits with
  | case1 b₀ b₁ b₂ b₃ b₄ b₅ b₆ b₇ rest ih =>
      have hRest : rest.length % 8 = 0 := by
        simp only [List.length_cons] at hWhole
        omega
      have hByte :=
        ofNat_eight_ofNat_toNat
          [b₀, b₁, b₂, b₃, b₄, b₅, b₆, b₇] rfl
      have hTail := ih hRest
      unfold ofBytes at hTail ⊢
      rw [List.flatMap_cons, hTail, hByte]
      rfl
  | case2 bits hShort =>
      match bits with
      | [] => rfl
      | [_] | [_, _] | [_, _, _] | [_, _, _, _]
      | [_, _, _, _, _] | [_, _, _, _, _, _]
      | [_, _, _, _, _, _, _] => simp at hWhole
      | b₀ :: b₁ :: b₂ :: b₃ :: b₄ :: b₅ :: b₆ :: b₇ :: rest =>
          exact absurd rfl
            (hShort b₀ b₁ b₂ b₃ b₄ b₅ b₆ b₇ rest)

theorem length_toBytes
    (bits : Bits)
    (hWhole : bits.length % 8 = 0) :
    (toBytes bits).length = bits.length / 8 := by
  have h := congrArg List.length (ofBytes_toBytes bits hWhole)
  rw [length_ofBytes] at h
  omega

------------------------------------------------------------
-- Fields of a Bit String
------------------------------------------------------------

/- The numbers in the first `count` fields of equal width. -/
def fields
    (width : Nat) : Nat → Bits → List Nat
  | 0, _ => []
  | count + 1, bits =>
      toNat (bits.take width)
        :: fields width count (bits.drop width)

@[simp] theorem length_fields
    (width count : Nat)
    (bits : Bits) :
    (fields width count bits).length = count := by
  induction count generalizing bits with
  | zero => rfl
  | succ count ih => simp [fields, ih]

/- Fields written one after the other are read back. -/
theorem fields_flatMap_ofNat
    (width : Nat)
    (numbers : List Nat) :
    fields width numbers.length
        (numbers.flatMap (ofNat width)) =
      numbers.map (· % 2 ^ width) := by
  induction numbers with
  | nil => rfl
  | cons n rest ih =>
      simp [fields, toNat_ofNat, ih]

/- Fields that fill a bit string give it back. -/
theorem flatMap_ofNat_fields
    (width count : Nat)
    (bits : Bits)
    (hLength : bits.length = count * width) :
    (fields width count bits).flatMap (ofNat width) = bits := by
  induction count generalizing bits with
  | zero =>
      have hNil : bits = [] := by simpa using hLength
      simp [fields, hNil]
  | succ count ih =>
      have hTake : (bits.take width).length = width := by
        rw [List.length_take, hLength, Nat.succ_mul]
        omega
      have hDrop : (bits.drop width).length = count * width := by
        rw [List.length_drop, hLength, Nat.succ_mul]
        omega
      have hHead := ofNat_toNat (bits.take width)
      rw [hTake] at hHead
      simp only [fields, List.flatMap_cons, hHead,
        ih _ hDrop, List.take_append_drop]

end Bits

end LatticeSignature
