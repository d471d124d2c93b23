import LatticeSignature.Outcome

/-
  Signed machine words are integers here, and the range of a
  word is a condition on them.  Checked arithmetic stops with
  an overflow outside of the range; wrapping keeps the
  representative modulo `2^32`.

  Main declarations:
    * `Word.Fits32`, `Word.Fits64`
    * `Word.check32`, `Word.check64`
    * `Word.check32_eq_ok_iff`, `Word.check64_eq_ok_iff`
    * `Word.wrap32`
    * `Word.magnitude`
    * `Word.shiftLeft`
-/

------------------------------------------------------------
-- Ranges and Checked Arithmetic
------------------------------------------------------------

namespace LatticeSignature

open scoped Powers

namespace Word

variable {ε : Type}

/- The range of a signed word of 32 bits. -/
def Fits32
    (x : Int) : Prop :=
  -2147483648 ≤ x ∧ x ≤ 2147483647

/- The range of a signed word of 64 bits. -/
def Fits64
    (x : Int) : Prop :=
  -9223372036854775808 ≤ x ∧ x ≤ 9223372036854775807

instance
    (x : Int) :
    Decidable (Fits32 x) := by
  unfold Fits32
  infer_instance

instance
    (x : Int) :
    Decidable (Fits64 x) := by
  unfold Fits64
  infer_instance

/- Keep a number that fits into 32 bits. -/
def check32
    (x : Int) : Outcome ε Int :=
  if Fits32 x then .ok x else .error .overflow

/- Keep a number that fits into 64 bits. -/
def check64
    (x : Int) : Outcome ε Int :=
  if Fits64 x then .ok x else .error .overflow

theorem check32_eq_ok_iff
    (x y : Int) :
    (check32 x : Outcome ε Int) = .ok y ↔
      Fits32 x ∧ y = x := by
  unfold check32
  split <;> simp_all [eq_comm]

theorem check64_eq_ok_iff
    (x y : Int) :
    (check64 x : Outcome ε Int) = .ok y ↔
      Fits64 x ∧ y = x := by
  unfold check64
  split <;> simp_all [eq_comm]

/- Sum of two words. -/
def add32
    (x y : Int) : Outcome ε Int :=
  check32 (x + y)

/- Difference of two words. -/
def sub32
    (x y : Int) : Outcome ε Int :=
  check32 (x - y)

/- Product of two words. -/
def mul32
    (x y : Int) : Outcome ε Int :=
  check32 (x * y)

/- Difference of two long words. -/
def sub64
    (x y : Int) : Outcome ε Int :=
  check64 (x - y)

/- Product of two long words. -/
def mul64
    (x y : Int) : Outcome ε Int :=
  check64 (x * y)

------------------------------------------------------------
-- Wrapping Arithmetic
------------------------------------------------------------

/- The word with the same 32 low bits. -/
def wrap32
    (x : Int) : Int :=
  (x + 2147483648) % 4294967296 - 2147483648

theorem wrap32_fits
    (x : Int) :
    Fits32 (wrap32 x) := by
  unfold wrap32 Fits32
  omega

/- The 32 low bits are kept. -/
theorem wrap32_emod
    (x : Int) :
    wrap32 x % 4294967296 = x % 4294967296 := by
  unfold wrap32
  omega

theorem wrap32_of_fits
    (x : Int)
    (hFits : Fits32 x) :
    wrap32 x = x := by
  unfold Fits32 at hFits
  unfold wrap32
  omega

/-
  The absolute value of a word.  The least word has no
  positive counterpart and is its own magnitude.
-/
def magnitude
    (x : Int) : Int :=
  wrap32 (if x < 0 then -x else x)

/- Move the bits of a word up and drop those that leave it. -/
def shiftLeft
    (x : Int)
    (places : Nat) : Outcome ε Int :=
  if places < 32 then
    .ok (wrap32 (x * 2 ^ places))
  else
    .error .overflow

end Word

end LatticeSignature
