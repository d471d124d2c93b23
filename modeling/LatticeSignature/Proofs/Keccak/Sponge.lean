import LatticeSignature.Proofs.Stream.Separation
import Mathlib.Logic.Function.Iterate

/-
  The sponge in blocks, as its standard has it: a message is
  filled up to whole blocks, each of which is added to the
  lanes before a permutation, and the output is the front part
  of the lanes between permutations.  Handing bytes in and out
  one at a time makes no difference.

  Main declarations:
    * `Keccak.addBytes`
    * `Keccak.padding`, `Keccak.padded`
    * `Keccak.absorbBlocks`, `Keccak.absorbed`
    * `Keccak.sponge`
    * `Keccak.Absorber.absorb_block`
    * `Keccak.Absorber.finish_eq`
    * `Keccak.permute_extend`
    * `Keccak.byte_extend`, `Keccak.read_extend`
-/

------------------------------------------------------------
-- Blocks
------------------------------------------------------------

namespace LatticeSignature

namespace Keccak

/- Add bytes to the lanes, from a byte position on. -/
def addBytes
    (a : Lanes)
    (position : Nat) : Bytes → Lanes
  | [] => a
  | b :: rest => addBytes (addByte a position b) (position + 1) rest

/-
  What ends a message in a block with room for some bytes, at
  least one: the suffix of an extendable output, and the last
  bit of the block.
-/
def padding : Nat → Bytes
  | room + 2 => 0x1F :: (List.replicate room 0 ++ [0x80])
  | _ => [0x9F]

/- A message that is filled up to whole blocks. -/
def padded
    (rate : Nat)
    (message : Bytes) : Bytes :=
  message ++ padding (rate - message.length % rate)

/- Add one block after the other, and permute after each. -/
def absorbBlocks
    (rate : Nat) : (blocks : Nat) → Bytes → Lanes → Lanes
  | 0, _, a => a
  | blocks + 1, bytes, a =>
      absorbBlocks rate blocks (bytes.drop rate)
        (permute (addBytes a 0 (bytes.take rate)))

/- The lanes when all blocks of a message are absorbed. -/
def absorbed
    (rate : Nat)
    (message : Bytes) : Lanes :=
  absorbBlocks rate (message.length / rate + 1)
    (padded rate message) (Vector.replicate 25 0)

/-
  The first bytes of the output for a message.  The lanes are
  permuted after `rate` bytes each.
-/
def sponge
    (rate : Nat)
    (message : Bytes)
    (count : Nat) : Bytes :=
  (List.range count).map fun i =>
    byteAt (permute^[i / rate] (absorbed rate message)) (i % rate)

------------------------------------------------------------
-- Sums of Bytes
------------------------------------------------------------

theorem addBytes_append
    (a : Lanes)
    (position : Nat)
    (m n : Bytes) :
    addBytes a position (m ++ n) =
      addBytes (addBytes a position m) (position + m.length) n := by
  induction m generalizing a position with
  | nil => rfl
  | cons b rest ih =>
      rw [List.cons_append, addBytes, ih, addBytes,
        List.length_cons, Nat.add_right_comm, Nat.add_assoc]

theorem addByte_zero
    (a : Lanes)
    (position : Nat) :
    addByte a position 0 = a := by
  unfold addByte
  split
  · simp
  · rfl

theorem addBytes_zeros
    (a : Lanes)
    (position count : Nat) :
    addBytes a position (List.replicate count 0) = a := by
  induction count generalizing position with
  | zero => rfl
  | succ count ih =>
      rw [List.replicate_succ, addBytes, addByte_zero, ih]

/- Two bytes at one place are added as one. -/
theorem addByte_addByte
    (a : Lanes)
    (position : Nat)
    (b c : UInt8) :
    addByte (addByte a position b) position c =
      addByte a position (b ^^^ c) := by
  unfold addByte
  split
  · simp only [Vector.getElem_set_self, Vector.set_set,
      UInt64.xor_assoc, UInt8.toUInt64_xor,
      UInt64.shiftLeft_xor]
  · rfl

------------------------------------------------------------
-- Absorbing
------------------------------------------------------------

namespace Absorber

variable {rate : Nat}

/- Bytes that do not fill the block are only added. -/
theorem absorb_of_room
    (s : Absorber rate)
    (bytes : Bytes)
    (hRoom : s.position + bytes.length < rate) :
    s.absorb bytes =
      ⟨addBytes s.lanes s.position bytes,
        s.position + bytes.length⟩ := by
  induction bytes generalizing s with
  | nil => rfl
  | cons b rest ih =>
      rw [List.length_cons] at hRoom
      change (s.absorbByte b).absorb rest = _
      rw [s.absorbByte_of_room b (by omega),
        ih _ (by dsimp only; omega), List.length_cons]
      dsimp only
      rw [addBytes, Nat.add_right_comm, Nat.add_assoc]

/- Bytes that fill the block are added and permuted. -/
theorem absorb_block
    (s : Absorber rate)
    (bytes : Bytes)
    (hSome : bytes ≠ [])
    (hFull : s.position + bytes.length = rate) :
    s.absorb bytes =
      ⟨permute (addBytes s.lanes s.position bytes), 0⟩ := by
  induction bytes generalizing s with
  | nil => exact absurd rfl hSome
  | cons b rest ih =>
      rw [List.length_cons] at hFull
      change (s.absorbByte b).absorb rest = _
      by_cases hLast : rest = []
      · subst hLast
        have hEnd : s.position + 1 = rate := hFull
        change s.absorbByte b = _
        unfold absorbByte
        rw [if_pos hEnd]
        rfl
      · have hRest : 0 < rest.length :=
          List.length_pos_iff.2 hLast
        rw [s.absorbByte_of_room b (by omega),
          ih _ hLast (by dsimp only; omega)]
        rfl

/- The end of a message fills its last block. -/
theorem finish_eq
    (s : Absorber rate)
    (hRoom : s.position < rate) :
    s.finish =
      ⟨addBytes s.lanes s.position (padding (rate - s.position)),
        rate⟩ := by
  obtain ⟨lanes, position⟩ := s
  dsimp only at hRoom ⊢
  unfold finish
  by_cases hOne : rate - position = 1
  · -- Both ends of the suffix stand in the last byte.
    have hLast : rate - 1 = position := by omega
    rw [hOne, hLast]
    dsimp only
    rw [addByte_addByte]
    rfl
  · obtain ⟨room, hCount⟩ :
        ∃ room, rate - position = room + 2 :=
      ⟨rate - position - 2, by omega⟩
    have hLast : rate - 1 = position + 1 + room := by omega
    rw [hCount, hLast, padding, addBytes, addBytes_append,
      addBytes_zeros, List.length_replicate]
    rfl

end Absorber

theorem length_padding
    {room : Nat}
    (hRoom : 0 < room) :
    (padding room).length = room := by
  match room, hRoom with
  | 1, _ => rfl
  | room + 2, _ => simp [padding]

/- Whole blocks in front of a message stay as they are. -/
theorem padded_append
    {rate : Nat}
    {block rest : Bytes}
    (hBlock : block.length = rate) :
    padded rate (block ++ rest) = block ++ padded rate rest := by
  unfold padded
  rw [List.length_append, hBlock, Nat.add_mod_left,
    List.append_assoc]

/- Whole blocks are absorbed as the standard absorbs them. -/
theorem permute_finish_absorb
    {rate : Nat}
    (hRate : 0 < rate)
    (message : Bytes)
    (a : Lanes) :
    ∃ lanes,
      ((⟨a, 0⟩ : Absorber rate).absorb message).finish =
          ⟨lanes, rate⟩
        ∧ permute lanes =
          absorbBlocks rate (message.length / rate + 1)
            (padded rate message) a := by
  obtain ⟨blocks, hBlocks⟩ :
      ∃ blocks, message.length / rate = blocks :=
    ⟨_, rfl⟩
  rw [hBlocks]
  induction blocks generalizing message a with
  | zero =>
      have hShort : message.length < rate :=
        (Nat.div_eq_zero_iff_lt hRate).1 hBlocks
      have hLength : (padded rate message).length = rate := by
        rw [padded, Nat.mod_eq_of_lt hShort, List.length_append,
          length_padding (Nat.sub_pos_of_lt hShort)]
        omega
      have hRoom : 0 + message.length < rate := by omega
      rw [Absorber.absorb_of_room _ message hRoom,
        Absorber.finish_eq _ hRoom]
      refine ⟨_, rfl, ?_⟩
      rw [absorbBlocks, absorbBlocks,
        List.take_of_length_le (Nat.le_of_eq hLength), padded,
        Nat.mod_eq_of_lt hShort, addBytes_append]
      dsimp only
      rw [Nat.zero_add]
  | succ blocks ih =>
      have hLong : rate ≤ message.length := by
        by_contra hShort
        rw [Nat.div_eq_of_lt (Nat.not_le.1 hShort)] at hBlocks
        cases hBlocks
      obtain ⟨block, rest, rfl, hBlock⟩ :
          ∃ block rest, message = block ++ rest
            ∧ block.length = rate :=
        ⟨message.take rate, message.drop rate,
          (List.take_append_drop rate message).symm,
          List.length_take_of_le hLong⟩
      have hRest : rest.length / rate = blocks := by
        rw [List.length_append, hBlock,
          Nat.add_div_left _ hRate] at hBlocks
        exact Nat.succ.inj hBlocks
      have hSome : block ≠ [] := by
        rintro rfl
        exact absurd hBlock (Nat.ne_of_lt hRate)
      have hFull : 0 + block.length = rate := by
        rw [Nat.zero_add, hBlock]
      rw [Absorber.absorb_append,
        Absorber.absorb_block _ block hSome hFull,
        padded_append hBlock, absorbBlocks,
        List.take_left' hBlock, List.drop_left' hBlock]
      exact ih rest _ hRest

/- All blocks are absorbed when the first byte is handed out. -/
theorem permute_extend
    {rate : Nat}
    (hRate : 0 < rate)
    (message : Bytes) :
    ∃ lanes,
      extend rate message = ⟨lanes, rate⟩
        ∧ permute lanes = absorbed rate message :=
  permute_finish_absorb hRate message _

------------------------------------------------------------
-- Squeezing
------------------------------------------------------------

namespace Squeezer

variable {rate : Nat}

/- Within a block, only the position moves. -/
theorem after_of_room
    (a : Lanes)
    (position count : Nat)
    (hRoom : position + count ≤ rate) :
    ByteSource.after count (⟨a, position⟩ : Squeezer rate) =
      ⟨a, position + count⟩ := by
  induction count generalizing position with
  | zero => rfl
  | succ count ih =>
      have hNext :
          (ByteSource.next (⟨a, position⟩ : Squeezer rate)).2 =
            ⟨a, position + 1⟩ := by
        change (next _).2 = _
        unfold next
        rw [if_pos (by dsimp only; omega)]
      rw [ByteSource.after, hNext, ih _ (by omega),
        Nat.add_right_comm, Nat.add_assoc]

/- Some bytes after the end of a block, it is permuted. -/
theorem after_end
    (a : Lanes)
    (count : Nat)
    (hRoom : count + 1 ≤ rate) :
    ByteSource.after (count + 1) (⟨a, rate⟩ : Squeezer rate) =
      ⟨permute a, count + 1⟩ := by
  have hNext :
      (ByteSource.next (⟨a, rate⟩ : Squeezer rate)).2 =
        ⟨permute a, 1⟩ := by
    change (next _).2 = _
    unfold next
    rw [if_neg (Nat.lt_irrefl _)]
  rw [ByteSource.after, hNext,
    after_of_room _ _ _ (by omega), Nat.add_comm]

/- A whole block leads to the end of the next one. -/
theorem after_blocks
    (hRate : 0 < rate)
    (a : Lanes)
    (blocks : Nat) :
    ByteSource.after (rate * blocks) (⟨a, rate⟩ : Squeezer rate) =
      ⟨permute^[blocks] a, rate⟩ := by
  induction blocks generalizing a with
  | zero => rfl
  | succ blocks ih =>
      have hBlock :
          ByteSource.after rate (⟨a, rate⟩ : Squeezer rate) =
            ⟨permute a, rate⟩ := by
        obtain ⟨count, rfl⟩ :=
          Nat.exists_eq_succ_of_ne_zero (Nat.ne_of_gt hRate)
        exact after_end a count (Nat.le_refl _)
      rw [Nat.mul_succ, Nat.add_comm, ByteSource.after_add, hBlock,
        ih, Function.iterate_succ_apply]

/- The bytes of a block stand in the lanes that made it. -/
theorem byte_end
    (a : Lanes)
    {i : Nat}
    (hi : i < rate) :
    ByteSource.byte (⟨a, rate⟩ : Squeezer rate) i =
      byteAt (permute a) i := by
  unfold ByteSource.byte
  cases i with
  | zero =>
      rw [ByteSource.after]
      change (next _).1 = _
      unfold next
      rw [if_neg (Nat.lt_irrefl _)]
  | succ i =>
      rw [after_end a i (Nat.le_of_lt hi)]
      change (next _).1 = _
      unfold next
      rw [if_pos hi]

end Squeezer

/- A byte of the output stands in a block of the standard. -/
theorem byte_extend
    {rate : Nat}
    (hRate : 0 < rate)
    (message : Bytes)
    (i : Nat) :
    ByteSource.byte (extend rate message) i =
      byteAt (permute^[i / rate] (absorbed rate message))
        (i % rate) := by
  rcases permute_extend hRate message with
    ⟨lanes, hExtend, hAbsorbed⟩
  have hByte :
      ByteSource.byte (extend rate message)
          (rate * (i / rate) + i % rate) =
        byteAt (permute (permute^[i / rate] lanes))
          (i % rate) := by
    rw [← Squeezer.byte_end _ (Nat.mod_lt i hRate), hExtend,
      ← Squeezer.after_blocks hRate]
    unfold ByteSource.byte
    rw [ByteSource.after_add]
  have hOnce := Function.iterate_succ_apply' permute (i / rate) lanes
  rw [Function.iterate_succ_apply, hAbsorbed] at hOnce
  rw [Nat.div_add_mod, ← hOnce] at hByte
  exact hByte

/- What is read first is the output of the standard. -/
theorem read_extend
    {rate : Nat}
    (hRate : 0 < rate)
    (message : Bytes)
    (count : Nat) :
    (ByteSource.read count (extend rate message)).1 =
      sponge rate message count := by
  rw [ByteSource.read_fst, funext (byte_extend hRate message)]
  rfl

end Keccak

end LatticeSignature
