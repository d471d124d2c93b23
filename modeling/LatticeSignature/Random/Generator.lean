import LatticeSignature.Aes.Cipher
import LatticeSignature.Stream.Source

/-
  A deterministic generator in counter mode: its state is a
  key and a counter block, and both are replaced after every
  request.

  Main declarations:
    * `Generator`
    * `Generator.increment`
    * `Generator.blocks`
    * `Generator.refresh`
    * `Generator.ofEntropy`
    * `Generator.request`
-/

------------------------------------------------------------
-- Counters
------------------------------------------------------------

namespace LatticeSignature

open scoped Powers

/- A key and the counter block that was encrypted last. -/
structure Generator where
  key : Aes.Key
  counter : Aes.Block

namespace Generator

/- Add one to a number with its low byte first. -/
def incrementLE : Bytes → Bytes
  | [] => []
  | b :: rest =>
      if b = 0xFF then
        0 :: incrementLE rest
      else
        (b + 1) :: rest

@[simp] theorem length_incrementLE
    (bytes : Bytes) :
    (incrementLE bytes).length = bytes.length := by
  induction bytes with
  | nil => rfl
  | cons b rest ih =>
      unfold incrementLE
      split <;> simp [ih]

/- The number counts on, and starts again after the last. -/
theorem toNatLE_incrementLE
    (bytes : Bytes) :
    Bytes.toNatLE (incrementLE bytes) =
      (Bytes.toNatLE bytes + 1) % 256 ^ bytes.length := by
  induction bytes with
  | nil => simp [incrementLE, Bytes.toNatLE]
  | cons b rest ih =>
      have hPow :
          256 ^ (rest.length + 1) = 256 * 256 ^ rest.length :=
        Nat.pow_succ'
      unfold incrementLE
      split
      · rename_i hFull
        subst hFull
        have hCarry :
            (255 + 256 * Bytes.toNatLE rest + 1) / 256 =
              Bytes.toNatLE rest + 1 := by
          omega
        have hZero :
            (255 + 256 * Bytes.toNatLE rest + 1) % 256 = 0 := by
          omega
        simp only [Bytes.toNatLE, ih, List.length_cons, hPow]
        rw [Nat.mod_mul]
        simp only [UInt8.reduceToNat, hCarry, hZero]
      · rename_i hNotFull
        have hLt := b.toNat_lt
        have hNe : b.toNat ≠ 255 := by
          intro hEq
          exact hNotFull (UInt8.toNat_inj.1 hEq)
        have hByte : (b + 1).toNat = b.toNat + 1 := by
          rw [UInt8.toNat_add]
          exact Nat.mod_eq_of_lt (by
            simp only [UInt8.reduceToNat]
            omega)
        have hBound :
            Bytes.toNatLE rest < 256 ^ rest.length :=
          Bytes.toNatLE_lt rest
        simp only [Bytes.toNatLE, hByte, List.length_cons, hPow]
        rw [Nat.mod_eq_of_lt (by omega)]
        omega

/- The next counter block; its low byte stands last. -/
def increment
    (counter : Aes.Block) : Aes.Block :=
  ⟨(incrementLE counter.toList.reverse).reverse.toArray,
    by simp [length_incrementLE]⟩

------------------------------------------------------------
-- Requests
------------------------------------------------------------

/-
  Encrypt the next `count` counter blocks, and give back the
  counter that was encrypted last.
-/
def blocks
    (schedule : Aes.KeySchedule) :
    Nat → Aes.Block → Bytes × Aes.Block
  | 0, counter => ([], counter)
  | count + 1, counter =>
      let counter := increment counter
      let block := Aes.encrypt schedule counter
      let (rest, counter) := blocks schedule count counter
      (block.toList ++ rest, counter)

@[simp] theorem length_blocks
    (schedule : Aes.KeySchedule)
    (count : Nat)
    (counter : Aes.Block) :
    (blocks schedule count counter).1.length = 16 * count := by
  induction count generalizing counter with
  | zero => rfl
  | succ count ih =>
      simp [blocks, ih]
      omega

/- The state whose key and counter are given as one string. -/
def ofState
    (state : Bytes)
    (hSize : state.length = 48) : Generator where
  key := ⟨(state.take 32).toArray, by simp [hSize]⟩
  counter := ⟨(state.drop 32).toArray, by simp [hSize]⟩

/-
  Replace key and counter by the next three blocks, to which
  an entropy input is added.
-/
def refresh
    (g : Generator)
    (entropy : Vector UInt8 48) : Generator :=
  let fresh := (blocks (Aes.expandKey g.key) 3 g.counter).1
  ofState
    (List.zipWith (· ^^^ ·) fresh entropy.toList)
    (by simp [fresh])

/- The generator of an entropy input. -/
def ofEntropy
    (entropy : Vector UInt8 48) : Generator :=
  refresh
    ⟨Vector.replicate 32 0, Vector.replicate 16 0⟩
    entropy

/- Hand out `count` bytes and replace the state. -/
def request
    (g : Generator)
    (count : Nat) : Bytes × Generator :=
  let schedule := Aes.expandKey g.key
  let (bytes, counter) :=
    blocks schedule ((count + 15) / 16) g.counter
  (bytes.take count,
    refresh ⟨g.key, counter⟩ (Vector.replicate 48 0))

/- A request is filled to its end. -/
theorem length_request
    (g : Generator)
    (count : Nat) :
    (g.request count).1.length = count := by
  simp only [request, List.length_take, length_blocks]
  omega

/- The number in the next `count` bytes, low byte first. -/
def requestNumber
    (g : Generator)
    (count : Nat) : Nat × Generator :=
  let (bytes, g) := g.request count
  (Bytes.toNatLE bytes, g)

end Generator

end LatticeSignature
