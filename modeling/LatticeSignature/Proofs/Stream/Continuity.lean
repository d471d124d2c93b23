import LatticeSignature.Proofs.Aes.Permutation
import LatticeSignature.Proofs.Keccak.Sponge
import LatticeSignature.Proofs.Stream.Blocks

/-
  A seeded stream is one byte sequence, however it is cut into
  buffers.  The sequence of a sponge is the output of the
  standard for the seed and the nonce; that of the cipher is
  made of encrypted counter blocks, which no two nonces share.

  Main declarations:
    * `CounterStream.applyKeystream`, `CounterStream.overwrite`
    * `SeededStream.squeeze`, `SeededStream.emits`
    * `Keccak.Squeezer.emits`
    * `CounterStream.byte_start`
    * `CounterStream.layout`, `CounterStream.toList_counterBlock`
    * `CounterStream.layout_eq_iff`, `CounterStream.encrypt_eq_iff`
    * `SeededStream.IsSequence`
    * `SeededStream.start_ends`, `SeededStream.start_aes256_congr`
    * `SeededStream.streams_continue`
-/

------------------------------------------------------------
-- Keystreams
------------------------------------------------------------

namespace LatticeSignature

open scoped Powers

open Outcome

namespace CounterStream

/- Add the bytes that come next to those of a buffer. -/
def applyKeystream :
    Bytes → CounterStream → Bytes × CounterStream
  | [], s => ([], s)
  | b :: rest, s =>
      let (key, s) := ByteSource.next s
      let (bytes, s) := applyKeystream rest s
      ((b ^^^ key) :: bytes, s)

/- Blank a buffer, and add the bytes that come next. -/
def overwrite
    (buffer : Bytes)
    (s : CounterStream) : Bytes × CounterStream :=
  applyKeystream (List.replicate buffer.length 0) s

/- What was in the buffer is part of the sum. -/
theorem applyKeystream_eq
    (buffer : Bytes)
    (s : CounterStream) :
    applyKeystream buffer s =
      (List.zipWith (· ^^^ ·) buffer
          (ByteSource.read buffer.length s).1,
        (ByteSource.read buffer.length s).2) := by
  induction buffer generalizing s with
  | nil => rfl
  | cons b rest ih =>
      have hRest := ih (ByteSource.next s).2
      unfold applyKeystream
      dsimp only
      rw [hRest]
      rfl

/- A blank buffer takes the bytes as they are. -/
theorem overwrite_eq_read
    (buffer : Bytes)
    (s : CounterStream) :
    overwrite buffer s = ByteSource.read buffer.length s := by
  have hZeros :
      ∀ bytes : Bytes,
        List.zipWith (· ^^^ ·)
            (List.replicate bytes.length (0 : UInt8)) bytes =
          bytes := by
    intro bytes
    induction bytes with
    | nil => rfl
    | cons b rest ih =>
        rw [List.length_cons, List.replicate_succ,
          List.zipWith_cons_cons, ih, UInt8.zero_xor]
  have hLength := ByteSource.length_read buffer.length s
  have hSame := hZeros (ByteSource.read buffer.length s).1
  rw [hLength] at hSame
  rw [overwrite, applyKeystream_eq, List.length_replicate, hSame]

end CounterStream

------------------------------------------------------------
-- Streams as Sources of Blocks
------------------------------------------------------------

/- A view of a source that follows its steps reads its bytes. -/
theorem ByteSource.read_view
    {σ τ : Type}
    [ByteSource σ]
    [ByteSource τ]
    {f : τ → σ}
    (hNext :
      ∀ t, next (f t) = ((next t).1, f (next t).2))
    (count : Nat)
    (t : τ) :
    read count (f t) = ((read count t).1, f (read count t).2) := by
  induction count generalizing t with
  | zero => rfl
  | succ count ih =>
      rw [read, hNext]
      dsimp only
      rw [ih]
      rfl

/- A byte is the last one of a read. -/
theorem ByteSource.byte_view
    {σ τ : Type}
    [ByteSource σ]
    [ByteSource τ]
    {f : τ → σ}
    (hNext :
      ∀ t, next (f t) = ((next t).1, f (next t).2))
    (t : τ)
    (i : Nat) :
    byte (f t) i = byte t i := by
  have hAfter := congrArg Prod.snd (read_view hNext i t)
  rw [read_snd, read_snd] at hAfter
  rw [byte, byte, hAfter, hNext]

namespace SeededStream

/-
  Overwrite a buffer.  A sponge writes its output, and the
  cipher adds its keystream to a buffer that was blanked.
-/
def squeeze
    (buffer : Bytes) : SeededStream → Bytes × SeededStream
  | .shake128 sponge =>
      let (bytes, sponge) := ByteSource.read buffer.length sponge
      (bytes, .shake128 sponge)
  | .shake256 sponge =>
      let (bytes, sponge) := ByteSource.read buffer.length sponge
      (bytes, .shake256 sponge)
  | .aes256 counter =>
      let (bytes, counter) := counter.overwrite buffer
      (bytes, .aes256 counter)

theorem squeeze_eq_read
    (buffer : Bytes)
    (s : SeededStream) :
    squeeze buffer s = ByteSource.read buffer.length s := by
  cases s with
  | shake128 sponge =>
      rw [ByteSource.read_view (f := shake128) fun _ => rfl]
      rfl
  | shake256 sponge =>
      rw [ByteSource.read_view (f := shake256) fun _ => rfl]
      rfl
  | aes256 counter =>
      rw [ByteSource.read_view (f := aes256) fun _ => rfl,
        squeeze, CounterStream.overwrite_eq_read]

instance : BlockSource SeededStream where
  squeeze := squeeze
  length_squeeze := by
    intro buffer s
    rw [squeeze_eq_read, ByteSource.length_read]

/- Buffers of any sizes cut one sequence into parts. -/
theorem emits
    (s : SeededStream) :
    BlockSource.Emits s (ByteSource.byte s) :=
  BlockSource.emits_of_read squeeze_eq_read s

end SeededStream

/- A sponge overwrites a buffer with its output. -/
instance
    {rate : Nat} :
    BlockSource (Keccak.Squeezer rate) where
  squeeze buffer s := ByteSource.read buffer.length s
  length_squeeze buffer s :=
    ByteSource.length_read buffer.length s

/- The output is one sequence, too. -/
theorem Keccak.Squeezer.emits
    {rate : Nat}
    (s : Squeezer rate) :
    BlockSource.Emits s (ByteSource.byte s) :=
  BlockSource.emits_of_read (fun _ _ => rfl) s

/- No stream makes blocks without bytes. -/
theorem StreamKind.blockBytes_pos
    (kind : StreamKind) :
    0 < kind.blockBytes := by
  cases kind <;> decide

------------------------------------------------------------
-- Counter Blocks
------------------------------------------------------------

/- The low bytes of a number, greatest one first. -/
def Bytes.ofNatBE
    (count n : Nat) : Bytes :=
  (ofNatLE count n).reverse

namespace CounterStream

/- Unread bytes are handed out before a block is encrypted. -/
theorem after_unread
    (schedule : Aes.KeySchedule)
    (nonce : UInt16)
    (number : UInt32)
    (unread : Bytes)
    {count : Nat}
    (hCount : count ≤ unread.length) :
    ByteSource.after count
        (⟨schedule, nonce, number, unread⟩ : CounterStream) =
      ⟨schedule, nonce, number, unread.drop count⟩ := by
  induction count generalizing unread with
  | zero => rfl
  | succ count ih =>
      cases unread with
      | nil => cases hCount
      | cons b rest => exact ih rest (Nat.le_of_succ_le_succ hCount)

theorem byte_unread
    (schedule : Aes.KeySchedule)
    (nonce : UInt16)
    (number : UInt32)
    (unread : Bytes)
    {i : Nat}
    (hi : i < unread.length) :
    ByteSource.byte
        (⟨schedule, nonce, number, unread⟩ : CounterStream) i =
      unread[i] := by
  rw [ByteSource.byte, after_unread _ _ _ _ (Nat.le_of_lt hi),
    List.drop_eq_getElem_cons hi]
  rfl

/- Encrypting a block makes its bytes unread. -/
theorem next_encrypt
    (schedule : Aes.KeySchedule)
    (nonce : UInt16)
    (number : UInt32) :
    ByteSource.next
        (⟨schedule, nonce, number, []⟩ : CounterStream) =
      ByteSource.next
        (⟨schedule, nonce, number + 1,
          (Aes.encrypt schedule
            (counterBlock nonce number)).toList⟩
          : CounterStream) := by
  have hSplit :
      ∀ block : Aes.Block,
        block.toList = block.head :: block.toList.tail := by
    intro block
    rcases block with ⟨⟨bytes⟩, hSize⟩
    cases bytes with
    | nil => cases hSize
    | cons b rest => rfl
  change next _ = next _
  unfold next
  rw [hSplit]

/- Sixteen bytes are one encrypted block. -/
theorem byte_block
    (schedule : Aes.KeySchedule)
    (nonce : UInt16)
    (number : UInt32)
    (j : Fin 16) :
    ByteSource.byte
        (⟨schedule, nonce, number, []⟩ : CounterStream) j.val =
      (Aes.encrypt schedule (counterBlock nonce number))[j] := by
  obtain ⟨block, hBlock⟩ :
      ∃ block,
        Aes.encrypt schedule (counterBlock nonce number) = block :=
    ⟨_, rfl⟩
  have hNext := next_encrypt schedule nonce number
  have hj : j.val < block.toList.length := by simp
  have hUnread :=
    byte_unread schedule nonce (number + 1) block.toList hj
  rw [hBlock] at hNext ⊢
  have hSame :
      ByteSource.byte
          (⟨schedule, nonce, number, []⟩ : CounterStream) j.val =
        ByteSource.byte
          (⟨schedule, nonce, number + 1, block.toList⟩
            : CounterStream) j.val := by
    unfold ByteSource.byte
    cases j.val with
    | zero => exact congrArg Prod.fst hNext
    | succ i =>
        rw [ByteSource.after, ByteSource.after, hNext]
  rw [hSame, hUnread]
  simp

theorem after_block
    (schedule : Aes.KeySchedule)
    (nonce : UInt16)
    (number : UInt32) :
    ByteSource.after 16
        (⟨schedule, nonce, number, []⟩ : CounterStream) =
      ⟨schedule, nonce, number + 1, []⟩ := by
  have hUnread :=
    after_unread schedule nonce (number + 1)
      (Aes.encrypt schedule (counterBlock nonce number)).toList
      (Nat.le_of_eq Vector.length_toList.symm)
  rw [List.drop_of_length_le (Nat.le_of_eq Vector.length_toList)]
    at hUnread
  rw [ByteSource.after, next_encrypt]
  exact hUnread

/- Blocks are encrypted in the order of their numbers. -/
theorem after_blocks
    (key : Aes.Key)
    (nonce : UInt16)
    (blocks : Nat) :
    ByteSource.after (16 * blocks) (start key nonce) =
      ⟨Aes.expandKey key, nonce, UInt32.ofNat blocks, []⟩ := by
  induction blocks with
  | zero => rfl
  | succ blocks ih =>
      rw [Nat.mul_succ, ByteSource.after_add, ih, after_block,
        UInt32.ofNat_add]
      rfl

/- The stream of a key is made of encrypted counter blocks. -/
theorem byte_start
    (key : Aes.Key)
    (nonce : UInt16)
    (i : Nat)
    (j : Fin 16) :
    ByteSource.byte (start key nonce) (16 * i + j.val) =
      (Aes.encrypt (Aes.expandKey key)
        (counterBlock nonce (UInt32.ofNat i)))[j] := by
  rw [← byte_block, ← after_blocks]
  unfold ByteSource.byte
  rw [ByteSource.after_add]

------------------------------------------------------------
-- Layout of Counter Blocks
------------------------------------------------------------

/-
  The bytes of a counter block: the nonce with its low byte
  first, ten zero bytes, and the number of the block with its
  high byte first.
-/
def layout
    (nonce : UInt16)
    (i : Nat) : Bytes :=
  Bytes.ofNatLE 2 nonce.toNat
    ++ (List.replicate 10 0 ++ Bytes.ofNatBE 4 i)

/- A byte of a word is a digit of its number. -/
theorem toUInt8_shiftRight
    (i : Nat)
    (place : UInt32)
    {bits : Nat}
    (hPlace : place.toNat = bits)
    (hBits : bits = 8 ∨ bits = 16 ∨ bits = 24) :
    (UInt32.ofNat i >>> place).toUInt8 =
      UInt8.ofNat (i / 2 ^ bits) := by
  apply UInt8.toNat_inj.1
  simp only [UInt32.toNat_toUInt8, UInt32.toNat_shiftRight,
    UInt32.toNat_ofNat', UInt8.toNat_ofNat',
    Nat.shiftRight_eq_div_pow, hPlace]
  rcases hBits with rfl | rfl | rfl <;>
    simp only [Nat.reduceMod, Nat.reducePow] <;> omega

theorem toList_counterBlock
    (nonce : UInt16)
    (i : Nat) :
    (counterBlock nonce (UInt32.ofNat i)).toList =
      layout nonce i := by
  have hHigh :
      (nonce >>> 8).toUInt8 = UInt8.ofNat (nonce.toNat / 256) := by
    apply UInt8.toNat_inj.1
    simp only [UInt16.toNat_toUInt8, UInt16.toNat_shiftRight,
      UInt8.toNat_ofNat', Nat.shiftRight_eq_div_pow]
    rfl
  have hLast : (UInt32.ofNat i).toUInt8 = UInt8.ofNat i := by
    apply UInt8.toNat_inj.1
    simp only [UInt32.toNat_toUInt8, UInt32.toNat_ofNat',
      UInt8.toNat_ofNat']
    omega
  have hBytes :
      Bytes.ofNatBE 4 i =
        [UInt8.ofNat (i / 2 ^ 24), UInt8.ofNat (i / 2 ^ 16),
          UInt8.ofNat (i / 2 ^ 8), UInt8.ofNat i] := by
    simp [Bytes.ofNatBE, Bytes.ofNatLE, Nat.div_div_eq_div_mul]
  have hFirst :=
    toUInt8_shiftRight i 24 (rfl : _ = 24) (by decide)
  have hSecond :=
    toUInt8_shiftRight i 16 (rfl : _ = 16) (by decide)
  have hThird :=
    toUInt8_shiftRight i 8 (rfl : _ = 8) (by decide)
  rw [layout, hBytes, ← hFirst, ← hSecond, ← hThird, ← hLast]
  unfold counterBlock Bytes.ofNatLE Bytes.ofNatLE
  rw [← hHigh]
  rfl

theorem ofNatLE_injective
    {count n n' : Nat}
    (hn : n < 256 ^ count)
    (hn' : n' < 256 ^ count)
    (hSame : Bytes.ofNatLE count n = Bytes.ofNatLE count n') :
    n = n' := by
  have hValue := congrArg Bytes.toNatLE hSame
  rw [Bytes.toNatLE_ofNatLE, Bytes.toNatLE_ofNatLE,
    Nat.mod_eq_of_lt hn, Nat.mod_eq_of_lt hn'] at hValue
  exact hValue

/- No two blocks of any nonces have the same layout. -/
theorem layout_eq_iff
    {nonce nonce' : UInt16}
    {i i' : Nat}
    (hi : i < 4294967296)
    (hi' : i' < 4294967296) :
    layout nonce i = layout nonce' i'
      ↔ nonce = nonce' ∧ i = i' := by
  constructor
  · intro hSame
    have hFront :
        (Bytes.ofNatLE 2 nonce.toNat).length =
          (Bytes.ofNatLE 2 nonce'.toNat).length := by
      rw [Bytes.length_ofNatLE, Bytes.length_ofNatLE]
    rcases List.append_inj hSame hFront with ⟨hNonce, hRest⟩
    have hNumber :=
      List.reverse_inj.1 (List.append_cancel_left hRest)
    exact
      ⟨UInt16.toNat_inj.1
          (ofNatLE_injective nonce.toNat_lt nonce'.toNat_lt hNonce),
        ofNatLE_injective hi hi' hNumber⟩
  · rintro ⟨rfl, rfl⟩
    rfl

/- Blocks of different layouts are encrypted to different ones. -/
theorem encrypt_eq_iff
    (key : Aes.Key)
    {nonce nonce' : UInt16}
    {i i' : Nat}
    {block block' : Aes.Block}
    (hi : i < 4294967296)
    (hi' : i' < 4294967296)
    (hBlock : block.toList = layout nonce i)
    (hBlock' : block'.toList = layout nonce' i') :
    Aes.encrypt (Aes.expandKey key) block =
        Aes.encrypt (Aes.expandKey key) block'
      ↔ nonce = nonce' ∧ i = i' := by
  rw [← layout_eq_iff hi hi', ← hBlock, ← hBlock',
    Vector.toList_inj]
  constructor
  · exact Aes.encrypt_injective (Aes.expandKey key)
  · intro hSame
    rw [hSame]

end CounterStream

------------------------------------------------------------
-- Streams of Seeds
------------------------------------------------------------

namespace SeededStream

/-
  The byte sequence that belongs to a seed and a nonce.  A
  sponge absorbs both of them.  The cipher has the first bytes
  of the seed as its key, and its blocks can be numbered below
  `2^32`.
-/
def IsSequence
    (kind : StreamKind)
    (seed : Bytes)
    (nonce : UInt16)
    (bytes : Nat → UInt8) : Prop :=
  match kind with
  | .shake128 =>
      ∀ count,
        (List.range count).map bytes =
          Keccak.sponge Keccak.rate128
            (seed ++ Bytes.ofNatLE 2 nonce.toNat) count
  | .shake256 =>
      ∀ count,
        (List.range count).map bytes =
          Keccak.sponge Keccak.rate256
            (seed ++ Bytes.ofNatLE 2 nonce.toNat) count
  | .aes256 =>
      ∃ key : Aes.Key,
        key.toList = seed.take 32
          ∧ ∀ i < 4294967296, ∀ j : Fin 16,
            ∃ block : Aes.Block,
              block.toList = CounterStream.layout nonce i
                ∧ bytes (16 * i + j.val) =
                  (Aes.encrypt (Aes.expandKey key) block)[j]

/- What a sponge emits is the output of the standard. -/
theorem map_byte_extend
    {rate : Nat}
    {f : Keccak.Squeezer rate → SeededStream}
    (hRate : 0 < rate)
    (hNext :
      ∀ sponge,
        ByteSource.next (f sponge) =
          ((ByteSource.next sponge).1,
            f (ByteSource.next sponge).2))
    (message : Bytes)
    (count : Nat) :
    (List.range count).map
        (ByteSource.byte (f (Keccak.extend rate message))) =
      Keccak.sponge rate message count := by
  rw [funext (ByteSource.byte_view hNext _),
    ← ByteSource.read_fst, Keccak.read_extend hRate]

/- A seed is accepted for its size alone. -/
theorem start_ends
    (kind : StreamKind)
    (seed : Bytes)
    (nonce : UInt16) :
    Ends
      (fun stop =>
        seed.length < kind.minSeedBytes
          ∧ stop =
            .error (.length "AES-256-CTR seed" 32 seed.length))
      (start kind seed nonce)
      fun stream =>
        kind.minSeedBytes ≤ seed.length
          ∧ IsSequence kind seed nonce
            (ByteSource.byte stream) := by
  cases kind with
  | shake128 =>
      exact Or.inl ⟨_, rfl, Nat.zero_le _,
        map_byte_extend (by decide) (fun _ => rfl) _⟩
  | shake256 =>
      exact Or.inl ⟨_, rfl, Nat.zero_le _,
        map_byte_extend (by decide) (fun _ => rfl) _⟩
  | aes256 =>
      unfold start
      dsimp only
      split
      · rename_i hSize
        refine Or.inl ⟨_, rfl, hSize, keyOfSeed seed hSize, rfl, ?_⟩
        intro i _ j
        refine ⟨CounterStream.counterBlock nonce (UInt32.ofNat i),
          CounterStream.toList_counterBlock nonce i, ?_⟩
        rw [ByteSource.byte_view (f := aes256) fun _ => rfl,
          CounterStream.byte_start]
      · rename_i hShort
        exact Or.inr ⟨_, rfl, Nat.lt_of_not_le hShort, rfl⟩

/- The cipher does not see what follows its key in a seed. -/
theorem start_aes256_congr
    {seed seed' : Bytes}
    (nonce : UInt16)
    (hSize : 32 ≤ seed.length)
    (hSize' : 32 ≤ seed'.length)
    (hKey : seed.take 32 = seed'.take 32) :
    start .aes256 seed nonce = start .aes256 seed' nonce := by
  have hSame : keyOfSeed seed hSize = keyOfSeed seed' hSize' :=
    Vector.toList_inj.1 hKey
  rw [start, start, dif_pos hSize, dif_pos hSize', hSame]

/-
  A stream that starts writes one byte sequence, and it starts
  unless its seed is too short.  However the sequence is cut
  into buffers, and whatever was in them, they hold in a row
  what a single buffer would hold.  The sequence is the output
  of the sponge for the seed and the nonce, or the encryption
  of the counter blocks of the nonce.  Bytes of a seed behind
  the key make no difference to the cipher, and no counter
  block belongs to two nonces, or to two numbers, before it is
  encrypted or after.
-/
theorem streams_continue :
    (∀ (kind : StreamKind) (seed : Bytes) (nonce : UInt16),
      Ends
        (fun stop =>
          seed.length < kind.minSeedBytes
            ∧ stop =
              .error (.length "AES-256-CTR seed" 32 seed.length))
        (start kind seed nonce)
        fun stream =>
          kind.minSeedBytes ≤ seed.length
            ∧ ∃ bytes : Nat → UInt8,
              IsSequence kind seed nonce bytes
                ∧ ∀ buffers : List Bytes,
                  let written :=
                    (BlockSource.squeezeAll buffers stream).1
                  written.map List.length =
                      buffers.map List.length
                    ∧ written.flatten =
                      (List.range buffers.flatten.length).map
                        bytes
                    ∧ ∀ whole : Bytes,
                      whole.length = buffers.flatten.length →
                        written.flatten =
                          (squeeze whole stream).1)
      ∧ (∀ (seed seed' : Bytes) (nonce : UInt16),
        32 ≤ seed.length → 32 ≤ seed'.length →
          seed.take 32 = seed'.take 32 →
            start .aes256 seed nonce = start .aes256 seed' nonce)
      ∧ ∀ (key : Aes.Key) (nonce nonce' : UInt16) (i i' : Nat)
          (block block' : Aes.Block),
        i < 4294967296 → i' < 4294967296 →
          block.toList = CounterStream.layout nonce i →
            block'.toList = CounterStream.layout nonce' i' →
              (block = block' ↔ nonce = nonce' ∧ i = i')
                ∧ (Aes.encrypt (Aes.expandKey key) block =
                    Aes.encrypt (Aes.expandKey key) block'
                  ↔ nonce = nonce' ∧ i = i') := by
  refine ⟨?_, ?_, ?_⟩
  · intro kind seed nonce
    refine (start_ends kind seed nonce).mono ?_
    intro stream hStream
    rcases hStream with ⟨hAccepted, hSequence⟩
    refine ⟨hAccepted, ByteSource.byte stream, hSequence, ?_⟩
    intro buffers written
    have hWritten := stream.emits buffers
    refine ⟨BlockSource.map_length_squeezeAll buffers stream,
      hWritten, ?_⟩
    intro whole hWhole
    rw [squeeze_eq_read, ByteSource.read_fst, hWhole]
    exact hWritten
  · intro seed seed' nonce hSize hSize' hKey
    exact start_aes256_congr nonce hSize hSize' hKey
  · intro key nonce nonce' i i' block block' hi hi' hBlock hBlock'
    constructor
    · rw [← CounterStream.layout_eq_iff hi hi', ← hBlock,
        ← hBlock', Vector.toList_inj]
    · exact
        CounterStream.encrypt_eq_iff key hi hi' hBlock hBlock'

end SeededStream

end LatticeSignature
