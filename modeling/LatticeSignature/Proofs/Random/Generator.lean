import LatticeSignature.Random.Generator
import Mathlib.Algebra.Ring.Nat

/-
  The generator in counter mode over all runs of requests.  Its
  counter block is a number of 128 bits with the high byte
  first.  A request hands out the encryptions of the numbers
  that come next, and those of the three numbers after them are
  the state that it leaves.

  Main declarations:
    * `Bytes.toNatBE`, `Bytes.ofNatLE_toNatLE`
    * `Aes.number`, `Aes.blockOfNat`
    * `Aes.keystream`
    * `CounterState`, `CounterState.request`
    * `Generator.increment_eq_blockOfNat`
    * `Generator.blocks_eq_keystream`
    * `Generator.request_eq`, `Generator.runRequests_state`
    * `Generator.request_prefix`, `Generator.request_congr`
    * `Generator.requests_follow_standard`
-/

------------------------------------------------------------
-- Numbers with the High Byte First
------------------------------------------------------------

namespace LatticeSignature

namespace Bytes

/- The number whose bytes are given, greatest one first. -/
def toNatBE
    (bytes : Bytes) : Nat :=
  bytes.foldl (fun n b => 256 * n + b.toNat) 0

theorem toNatBE_reverse
    (bytes : Bytes) :
    toNatBE bytes.reverse = toNatLE bytes := by
  unfold toNatBE
  rw [List.foldl_reverse]
  induction bytes with
  | nil => rfl
  | cons b rest ih =>
      rw [List.foldr_cons, ih, toNatLE, Nat.add_comm]

/- Writing gives back what was read. -/
theorem ofNatLE_toNatLE
    (bytes : Bytes) :
    ofNatLE bytes.length (toNatLE bytes) = bytes := by
  induction bytes with
  | nil => rfl
  | cons b rest ih =>
      have hByte := b.toNat_lt
      have hLow :
          UInt8.ofNat (b.toNat + 256 * toNatLE rest) = b := by
        apply UInt8.toNat_inj.1
        rw [UInt8.toNat_ofNat']
        omega
      have hRest :
          (b.toNat + 256 * toNatLE rest) / 256 = toNatLE rest := by
        omega
      rw [List.length_cons, toNatLE, ofNatLE, hLow, hRest, ih]

end Bytes

namespace Aes

/- The number in a block, high byte first. -/
def number
    (block : Block) : Nat :=
  Bytes.toNatBE block.toList

/- The block with a number modulo `2^128`, high byte first. -/
def blockOfNat
    (n : Nat) : Block :=
  ⟨(Bytes.ofNatLE 16 n).reverse.toArray, by simp⟩

theorem number_blockOfNat
    (n : Nat) :
    number (blockOfNat n) = n % 2 ^ 128 :=
  (Bytes.toNatBE_reverse _).trans (Bytes.toNatLE_ofNatLE 16 n)

theorem number_eq_toNatLE
    (block : Block) :
    number block = Bytes.toNatLE block.toList.reverse := by
  rw [← Bytes.toNatBE_reverse, List.reverse_reverse]
  rfl

theorem blockOfNat_number
    (block : Block) :
    blockOfNat (number block) = block := by
  have hBytes :
      Bytes.ofNatLE 16 (number block) = block.toList.reverse := by
    have hWritten :=
      Bytes.ofNatLE_toNatLE block.toList.reverse
    rw [List.length_reverse, Vector.length_toList,
      ← number_eq_toNatLE] at hWritten
    exact hWritten
  apply Vector.toList_inj.1
  change (Bytes.ofNatLE 16 (number block)).reverse = _
  rw [hBytes, List.reverse_reverse]

/- Numbers are counted modulo `2^128`. -/
theorem blockOfNat_mod_add
    (n k : Nat) :
    blockOfNat (n % 2 ^ 128 + k) = blockOfNat (n + k) := by
  rw [← blockOfNat_number (blockOfNat (n % 2 ^ 128 + k)),
    ← blockOfNat_number (blockOfNat (n + k)),
    number_blockOfNat, number_blockOfNat, Nat.mod_add_mod]

------------------------------------------------------------
-- Keystreams
------------------------------------------------------------

/- The encryptions of the numbers after `n`, in order. -/
def keystream
    (key : Key)
    (n count : Nat) : Bytes :=
  (List.range count).flatMap fun i =>
    (encrypt (expandKey key) (blockOfNat (n + (i + 1)))).toList

@[simp] theorem length_keystream
    (key : Key)
    (n count : Nat) :
    (keystream key n count).length = 16 * count := by
  unfold keystream
  rw [List.length_flatMap]
  simp only [Vector.length_toList, List.map_const',
    List.length_range, List.sum_replicate_nat]
  exact Nat.mul_comm count 16

/- The first number may be encrypted apart. -/
theorem keystream_succ
    (key : Key)
    (n count : Nat) :
    keystream key n (count + 1) =
      (encrypt (expandKey key) (blockOfNat (n + 1))).toList
        ++ keystream key (n + 1) count := by
  unfold keystream
  rw [List.range_succ_eq_map, List.flatMap_cons,
    List.flatMap_map]
  simp only [Nat.zero_add, Nat.add_assoc, Nat.add_comm 1]

theorem keystream_mod
    (key : Key)
    (n count : Nat) :
    keystream key (n % 2 ^ 128) count = keystream key n count := by
  unfold keystream
  simp only [blockOfNat_mod_add]

/- A longer keystream goes on where a shorter one ends. -/
theorem keystream_prefix
    (key : Key)
    (n : Nat)
    {count count' : Nat}
    (hLe : count ≤ count') :
    keystream key n count <+: keystream key n count' := by
  rcases Nat.le.dest hLe with ⟨more, rfl⟩
  unfold keystream
  rw [List.range_add, List.flatMap_append]
  exact List.prefix_append _ _

end Aes

------------------------------------------------------------
-- The Standard
------------------------------------------------------------

/- A key, and the number that was encrypted last. -/
structure CounterState where
  key : Aes.Key
  number : Nat

namespace CounterState

open Aes

theorem size_keyBytes
    {state : Bytes}
    (hSize : state.length = 48) :
    (state.take 32).toArray.size = 32 := by
  simp [hSize]

/- The state that is given as one string of 48 bytes. -/
def ofBytes
    (state : Bytes)
    (hSize : state.length = 48) : CounterState where
  key := ⟨(state.take 32).toArray, size_keyBytes hSize⟩
  number := Bytes.toNatBE (state.drop 32)

/- The number of blocks that a request needs. -/
def blockCount
    (count : Nat) : Nat :=
  (count + 15) / 16

/- The state that a keystream of three blocks is made into. -/
def update
    (key : Key)
    (n : Nat)
    (entropy : Vector UInt8 48) : CounterState :=
  ofBytes
    (List.zipWith (· ^^^ ·) (keystream key n 3) entropy.toList)
    (by simp)

/- Zero bytes change nothing. -/
theorem zipWith_xor_zero
    {bytes : Bytes}
    {n : Nat}
    (hSize : bytes.length = n) :
    List.zipWith (· ^^^ ·) bytes (List.replicate n 0) = bytes := by
  apply List.ext_getElem
  · simp [hSize]
  · intro i _ _
    rw [List.getElem_zipWith, List.getElem_replicate,
      UInt8.xor_zero]

/- Without an entropy input, the keystream is the state. -/
theorem update_zero
    (key : Key)
    (n : Nat) :
    update key n (Vector.replicate 48 0) =
      ofBytes (keystream key n 3) (by simp) := by
  have hKept := zipWith_xor_zero (length_keystream key n 3)
  unfold update
  simp only [Vector.toList_replicate]
  simp only [hKept]

/- The state of an entropy input, from key and number zero. -/
def instantiate
    (entropy : Vector UInt8 48) : CounterState :=
  update (Vector.replicate 32 0) 0 entropy

/-
  The first `count` bytes of the keystream, and the state that
  the three blocks after the ones in use make.
-/
def request
    (s : CounterState)
    (count : Nat) : Bytes × CounterState :=
  ((keystream s.key s.number (blockCount count)).take count,
    ofBytes
      (keystream s.key (s.number + blockCount count) 3)
      (by simp))

end CounterState

/- The answers to requests in turn, and the state after them. -/
def runRequests
    {σ : Type}
    (request : σ → Nat → Bytes × σ) :
    σ → List Nat → List Bytes × σ
  | s, [] => ([], s)
  | s, count :: rest =>
      let (bytes, s) := request s count
      let (answers, s) := runRequests request s rest
      (bytes :: answers, s)

------------------------------------------------------------
-- Requests
------------------------------------------------------------

namespace Generator

open Aes

/- The state of the standard: key, and counter as a number. -/
def state
    (g : Generator) : CounterState :=
  ⟨g.key, number g.counter⟩

/- The standard tells all states apart. -/
theorem state_injective :
    Function.Injective state := by
  intro g g' hSame
  rcases g with ⟨key, counter⟩
  rcases g' with ⟨key', counter'⟩
  injection hSame with hKey hNumber
  have hCounter := congrArg blockOfNat hNumber
  rw [blockOfNat_number, blockOfNat_number] at hCounter
  exact congr (congrArg Generator.mk hKey) hCounter

/- Counting with carries is addition modulo `2^128`. -/
theorem increment_eq_blockOfNat
    (counter : Block) :
    increment counter = blockOfNat (number counter + 1) := by
  have hNumber :
      number (increment counter) =
        (number counter + 1) % 2 ^ 128 := by
    have hCount :=
      toNatLE_incrementLE counter.toList.reverse
    rw [← number_eq_toNatLE, List.length_reverse,
      Vector.length_toList] at hCount
    exact (Bytes.toNatBE_reverse _).trans hCount
  rw [← blockOfNat_number (increment counter), hNumber]
  exact blockOfNat_mod_add (number counter + 1) 0

/- The carry runs through all bytes. -/
example :
    increment (Vector.replicate 16 0xFF) =
      Vector.replicate 16 0 := by
  decide

/- The blocks of a loop are a keystream. -/
theorem blocks_eq_keystream
    (key : Key)
    (count : Nat)
    (counter : Block) :
    blocks (expandKey key) count counter =
      (keystream key (number counter) count,
        blockOfNat (number counter + count)) := by
  induction count generalizing counter with
  | zero =>
      rw [Nat.add_zero, blockOfNat_number]
      rfl
  | succ count ih =>
      have hFirst := increment_eq_blockOfNat counter
      have hNext :
          number (increment counter) =
            (number counter + 1) % 2 ^ 128 := by
        rw [hFirst, number_blockOfNat]
      rw [blocks, ih, hNext, keystream_mod, blockOfNat_mod_add,
        keystream_succ, ← hFirst, Nat.add_assoc,
        Nat.add_comm 1 count]

/- The state of a string is the same for the standard. -/
theorem state_ofState
    (bytes : Bytes)
    (hSize : bytes.length = 48) :
    (ofState bytes hSize).state =
      CounterState.ofBytes bytes hSize :=
  rfl

/- Key and counter are replaced as the standard says. -/
theorem state_refresh
    (g : Generator)
    (entropy : Vector UInt8 48) :
    (g.refresh entropy).state =
      CounterState.update g.key (number g.counter) entropy := by
  unfold refresh
  rw [state_ofState]
  simp only [blocks_eq_keystream]
  rfl

theorem state_ofEntropy
    (entropy : Vector UInt8 48) :
    (ofEntropy entropy).state =
      CounterState.instantiate entropy :=
  state_refresh _ entropy

/- A request does what it does in the standard. -/
theorem request_eq
    (g : Generator)
    (count : Nat) :
    ((g.request count).1, (g.request count).2.state) =
      g.state.request count := by
  unfold request
  simp only [blocks_eq_keystream, state_refresh,
    CounterState.update_zero, number_blockOfNat, keystream_mod]
  simp only [state, CounterState.request,
    CounterState.blockCount]

theorem request_answer
    (g : Generator)
    (count : Nat) :
    (g.request count).1 = (g.state.request count).1 :=
  congrArg Prod.fst (g.request_eq count)

theorem state_request
    (g : Generator)
    (count : Nat) :
    (g.request count).2.state = (g.state.request count).2 :=
  congrArg Prod.snd (g.request_eq count)

/- So does a run of requests. -/
theorem runRequests_state
    (g : Generator)
    (counts : List Nat) :
    ((runRequests request g counts).1,
        (runRequests request g counts).2.state) =
      runRequests CounterState.request g.state counts := by
  induction counts generalizing g with
  | nil => rfl
  | cons count rest ih =>
      have hRest := ih (g.request count).2
      rw [runRequests, runRequests, ← request_eq]
      dsimp only
      rw [← hRest]

/- A shorter request is answered with the first bytes. -/
theorem request_prefix
    (g : Generator)
    {m n : Nat}
    (hLe : m ≤ n) :
    (g.request m).1 <+: (g.request n).1 := by
  have hBlocks :
      CounterState.blockCount m ≤ CounterState.blockCount n := by
    unfold CounterState.blockCount
    omega
  have hEnough :
      m ≤ (keystream g.key (number g.counter)
        (CounterState.blockCount m)).length := by
    rw [length_keystream]
    unfold CounterState.blockCount
    omega
  rcases keystream_prefix g.key (number g.counter) hBlocks with
    ⟨more, hMore⟩
  rw [request_answer, request_answer]
  unfold CounterState.request
  dsimp only [state]
  rw [← hMore, ← List.take_append_of_le_length hEnough]
  exact List.take_prefix_take_left hLe

/- Only the number of blocks decides the next state. -/
theorem request_congr
    (g : Generator)
    {m n : Nat}
    (hBlocks :
      CounterState.blockCount m = CounterState.blockCount n) :
    (g.request m).2 = (g.request n).2 := by
  apply state_injective
  rw [state_request, state_request]
  unfold CounterState.request
  simp only [hBlocks]

------------------------------------------------------------
-- Runs
------------------------------------------------------------

/-
  From every entropy input, a run of requests is answered as in
  the standard and leaves the state that the standard says.  In
  equal states, a shorter request is answered with the first
  bytes of a longer one, and requests for equally many blocks
  leave equal states.
-/
theorem requests_follow_standard :
    (∀ entropy : Vector UInt8 48,
      (ofEntropy entropy).state =
        CounterState.instantiate entropy)
      ∧ (∀ (g : Generator) (count : Nat),
        ((g.request count).1, (g.request count).2.state) =
          g.state.request count)
      ∧ (∀ (entropy : Vector UInt8 48) (counts : List Nat),
        let run := runRequests request (ofEntropy entropy) counts
        (run.1, run.2.state) =
          runRequests CounterState.request
            (CounterState.instantiate entropy) counts)
      ∧ (∀ (g : Generator) (m n : Nat),
        m ≤ n → (g.request m).1 <+: (g.request n).1)
      ∧ ∀ (g : Generator) (m n : Nat),
        (m + 15) / 16 = (n + 15) / 16 →
          (g.request m).2 = (g.request n).2 := by
  refine ⟨state_ofEntropy, request_eq, ?_, ?_, ?_⟩
  · intro entropy counts
    rw [← state_ofEntropy]
    exact runRequests_state (ofEntropy entropy) counts
  · intro g m n hLe
    exact g.request_prefix hLe
  · intro g m n hBlocks
    exact g.request_congr hBlocks

end Generator

end LatticeSignature
