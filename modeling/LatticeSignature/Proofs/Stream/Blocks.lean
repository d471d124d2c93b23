import LatticeSignature.Stream.Source

/-
  Sources that overwrite buffers.  If what a source writes is
  one byte sequence, however it is cut into buffers, then a
  reader that fetches blocks of any fixed size from it hands
  out the bytes of this sequence, one after the other.

  Main declarations:
    * `BlockSource`, `BlockSource.squeezeAll`
    * `BlockSource.Emits`
    * `BlockSource.Emits.squeeze`, `BlockSource.emits_of_read`
    * `ByteSource.byte_eq_of_steps`
    * `BlockBuffer`, `BlockBuffer.next`
    * `BlockBuffer.Holds`, `BlockBuffer.Holds.next`
    * `BlockBuffer.byte_ofSource`
-/

------------------------------------------------------------
-- Sources of Blocks
------------------------------------------------------------

namespace LatticeSignature

/-
  A state that overwrites a buffer of any size with the bytes
  that come next.  Whether it reads the buffer is left open.
-/
class BlockSource (σ : Type) where
  squeeze : Bytes → σ → Bytes × σ
  length_squeeze :
    ∀ (buffer : Bytes) (s : σ),
      (squeeze buffer s).1.length = buffer.length

namespace BlockSource

variable {σ : Type}
variable [BlockSource σ]

/- Overwrite one buffer after the other. -/
def squeezeAll : List Bytes → σ → List Bytes × σ
  | [], s => ([], s)
  | buffer :: rest, s =>
      let (block, s) := squeeze buffer s
      let (blocks, s) := squeezeAll rest s
      (block :: blocks, s)

/-
  What is written into buffers, in a run over any number of
  them, is the beginning of one byte sequence.
-/
def Emits
    (s : σ)
    (bytes : Nat → UInt8) : Prop :=
  ∀ buffers : List Bytes,
    (squeezeAll buffers s).1.flatten =
      (List.range buffers.flatten.length).map bytes

/- Every buffer keeps its size. -/
theorem map_length_squeezeAll
    (buffers : List Bytes)
    (s : σ) :
    (squeezeAll buffers s).1.map List.length =
      buffers.map List.length := by
  induction buffers generalizing s with
  | nil => rfl
  | cons buffer rest ih =>
      simp only [squeezeAll, List.map_cons, length_squeeze, ih]

/- The next block is part of the sequence, and so is the rest. -/
theorem Emits.squeeze
    {s : σ}
    {bytes : Nat → UInt8}
    (h : Emits s bytes)
    (buffer : Bytes) :
    (BlockSource.squeeze buffer s).1 =
        (List.range buffer.length).map bytes
      ∧ Emits (BlockSource.squeeze buffer s).2
        fun i => bytes (buffer.length + i) := by
  constructor
  · have hOne := h [buffer]
    simp only [squeezeAll, List.flatten_cons, List.flatten_nil,
      List.append_nil] at hOne
    exact hOne
  · intro buffers
    have hAll := h (buffer :: buffers)
    simp only [squeezeAll, List.flatten_cons, List.length_append,
      List.range_add, List.map_append, List.map_map] at hAll
    have hSize :
        (BlockSource.squeeze buffer s).1.length =
          ((List.range buffer.length).map bytes).length := by
      rw [length_squeeze, List.length_map, List.length_range]
    exact (List.append_inj hAll hSize).2

/- A source that only reads bytes emits them. -/
theorem emits_of_read
    [ByteSource σ]
    (hRead :
      ∀ (buffer : Bytes) (s : σ),
        BlockSource.squeeze buffer s =
          ByteSource.read buffer.length s)
    (s : σ) :
    Emits s (ByteSource.byte s) := by
  have hAll :
      ∀ (buffers : List Bytes) (s : σ),
        (squeezeAll buffers s).1.flatten =
          (ByteSource.read buffers.flatten.length s).1 := by
    intro buffers
    induction buffers with
    | nil =>
        intro s
        rfl
    | cons buffer rest ih =>
        intro s
        simp only [squeezeAll, hRead, List.flatten_cons,
          List.length_append, ih, ByteSource.read_add]
  intro buffers
  rw [hAll, ByteSource.read_fst]

end BlockSource

------------------------------------------------------------
-- Buffered Readers
------------------------------------------------------------

/- The bytes of a source are told by what each step yields. -/
theorem ByteSource.byte_eq_of_steps
    {σ : Type}
    [ByteSource σ]
    {R : σ → (Nat → UInt8) → Prop}
    (hStep :
      ∀ {s bytes}, R s bytes →
        (ByteSource.next s).1 = bytes 0
          ∧ R (ByteSource.next s).2 fun i => bytes (i + 1))
    {s : σ}
    {bytes : Nat → UInt8}
    (h : R s bytes)
    (i : Nat) :
    ByteSource.byte s i = bytes i := by
  induction i generalizing s bytes with
  | zero => exact (hStep h).1
  | succ i ih => exact ih (hStep h).2

/-
  A source, the block that it wrote last, and the position of
  the next byte in this block.
-/
structure BlockBuffer (σ : Type) where
  source : σ
  block : Bytes
  position : Nat

namespace BlockBuffer

variable {σ : Type}

/- A reader that has come to the end of a blank block. -/
def ofSource
    (source : σ)
    (blockBytes : Nat) : BlockBuffer σ :=
  ⟨source, List.replicate blockBytes 0, blockBytes⟩

variable [BlockSource σ]

/- Overwrite the block when it is read to its end. -/
def refill
    (r : BlockBuffer σ) : BlockBuffer σ :=
  if r.position = r.block.length then
    let (block, source) := BlockSource.squeeze r.block r.source
    ⟨source, block, 0⟩
  else
    r

/- The byte at the position. -/
def next
    (r : BlockBuffer σ) : UInt8 × BlockBuffer σ :=
  let r := r.refill
  (r.block.getD r.position 0, { r with position := r.position + 1 })

instance : ByteSource (BlockBuffer σ) where
  next := next

/-
  The bytes of the block from the position on, followed by
  those that the source emits.
-/
structure Holds
    (r : BlockBuffer σ)
    (bytes : Nat → UInt8) : Prop where
  nonempty : 0 < r.block.length
  bound : r.position ≤ r.block.length
  unread :
    r.block.drop r.position =
      (List.range (r.block.length - r.position)).map bytes
  emits :
    BlockSource.Emits r.source fun i =>
      bytes (r.block.length - r.position + i)

theorem holds_ofSource
    {source : σ}
    {bytes : Nat → UInt8}
    {blockBytes : Nat}
    (hEmits : BlockSource.Emits source bytes)
    (hBlock : 0 < blockBytes) :
    (ofSource source blockBytes).Holds bytes where
  nonempty := by simpa [ofSource] using hBlock
  bound := by simp [ofSource]
  unread := by simp [ofSource]
  emits := by simpa [ofSource] using hEmits

/- A refilled block is not read to its end. -/
theorem Holds.refill
    {r : BlockBuffer σ}
    {bytes : Nat → UInt8}
    (h : r.Holds bytes) :
    r.refill.Holds bytes
      ∧ r.refill.position < r.refill.block.length := by
  unfold BlockBuffer.refill
  split
  · rename_i hEnd
    have hEmits : BlockSource.Emits r.source bytes := by
      simpa [hEnd] using h.emits
    rcases hEmits.squeeze r.block with ⟨hBlock, hRest⟩
    have hLength :=
      BlockSource.length_squeeze r.block r.source
    dsimp only
    refine ⟨⟨?_, Nat.zero_le _, ?_, ?_⟩, ?_⟩
    · exact hLength ▸ h.nonempty
    · rw [List.drop_zero, Nat.sub_zero, hLength]
      exact hBlock
    · rw [Nat.sub_zero, hLength]
      exact hRest
    · exact hLength ▸ h.nonempty
  · rename_i hWithin
    exact ⟨h, Nat.lt_of_le_of_ne h.bound hWithin⟩

/- Every step hands out the next byte. -/
theorem Holds.next
    {r : BlockBuffer σ}
    {bytes : Nat → UInt8}
    (h : r.Holds bytes) :
    (ByteSource.next r).1 = bytes 0
      ∧ (ByteSource.next r).2.Holds fun i => bytes (i + 1) := by
  rcases h.refill with ⟨hHolds, hWithin⟩
  change r.refill.block.getD r.refill.position 0 = _
    ∧ Holds { r.refill with position := _ } _
  generalize r.refill = r at hHolds hWithin ⊢
  have hCount :
      r.block.length - r.position =
        r.block.length - (r.position + 1) + 1 := by
    omega
  have hUnread := hHolds.unread
  rw [List.drop_eq_getElem_cons hWithin, hCount,
    List.range_succ_eq_map, List.map_cons, List.map_map,
    List.cons.injEq] at hUnread
  constructor
  · rw [List.getD_eq_getElem?_getD,
      List.getElem?_eq_getElem hWithin, Option.getD_some]
    exact hUnread.1
  · refine ⟨hHolds.nonempty, hWithin, hUnread.2, ?_⟩
    have hEmits := hHolds.emits
    simp only [hCount, Nat.add_right_comm _ 1] at hEmits
    exact hEmits

/- No byte is lost or repeated, whatever the size of blocks. -/
theorem byte_ofSource
    {source : σ}
    {bytes : Nat → UInt8}
    {blockBytes : Nat}
    (hEmits : BlockSource.Emits source bytes)
    (hBlock : 0 < blockBytes)
    (i : Nat) :
    ByteSource.byte (ofSource source blockBytes) i = bytes i :=
  ByteSource.byte_eq_of_steps (fun h => Holds.next h)
    (holds_ofSource hEmits hBlock) i

end BlockBuffer

end LatticeSignature
