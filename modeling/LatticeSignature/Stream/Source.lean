import LatticeSignature.Bytes

/-
  A source hands out one byte after the other, without end.
  Reading cuts a source into strings of any lengths; the bytes
  do not depend on the cuts.

  Main declarations:
    * `ByteSource`
    * `ByteSource.read`
    * `ByteSource.after`
    * `ByteSource.byte`
    * `ByteSource.read_fst`
    * `ByteSource.read_add`
-/

------------------------------------------------------------
-- Sources
------------------------------------------------------------

namespace LatticeSignature

/- A state that yields a byte and the state after it. -/
class ByteSource (σ : Type) where
  next : σ → UInt8 × σ

namespace ByteSource

variable {σ : Type}
variable [ByteSource σ]

/- The next `count` bytes and the state after them. -/
def read : Nat → σ → Bytes × σ
  | 0, s => ([], s)
  | count + 1, s =>
      let (b, s) := next s
      let (rest, s) := read count s
      (b :: rest, s)

/- The state after `count` bytes. -/
def after : Nat → σ → σ
  | 0, s => s
  | count + 1, s => after count (next s).2

/- The byte at a position, counted from zero. -/
def byte
    (s : σ)
    (i : Nat) : UInt8 :=
  (next (after i s)).1

@[simp] theorem read_snd
    (count : Nat)
    (s : σ) :
    (read count s).2 = after count s := by
  induction count generalizing s with
  | zero => rfl
  | succ count ih => simp [read, after, ih]

@[simp] theorem length_read
    (count : Nat)
    (s : σ) :
    (read count s).1.length = count := by
  induction count generalizing s with
  | zero => rfl
  | succ count ih => simp [read, ih]

theorem after_add
    (m n : Nat)
    (s : σ) :
    after (m + n) s = after n (after m s) := by
  induction m generalizing s with
  | zero => simp [after]
  | succ m ih =>
      rw [Nat.succ_add]
      exact ih (next s).2

/- A read takes the bytes at the first positions. -/
theorem read_fst
    (count : Nat)
    (s : σ) :
    (read count s).1 = (List.range count).map (byte s) := by
  induction count generalizing s with
  | zero => rfl
  | succ count ih =>
      rw [List.range_succ_eq_map]
      simp only [read, ih, List.map_cons, List.map_map]
      rfl

/- Two reads are one read of the total length. -/
theorem read_add
    (m n : Nat)
    (s : σ) :
    read (m + n) s =
      ((read m s).1 ++ (read n (read m s).2).1,
        (read n (read m s).2).2) := by
  induction m generalizing s with
  | zero =>
      rw [Nat.zero_add]
      rfl
  | succ m ih =>
      rw [Nat.succ_add]
      simp only [read, ih]
      rfl

end ByteSource

end LatticeSignature
