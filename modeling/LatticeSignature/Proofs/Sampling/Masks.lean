import LatticeSignature.Proofs.Encoding.Coefficients
import LatticeSignature.Proofs.Encoding.PackingLaws
import LatticeSignature.Proofs.Sampling.Order

/-
  Masks and responses have one packed form.  A mask is what
  the first bytes of its stream are unpacked to as a response,
  in blocks of any size, and these bytes pack it again.

  Main declarations:
    * `Bits.toNat_take`, `Bits.toNat_drop`
    * `Bits.getElem_fields`, `Bits.toNat_ofBytes`
    * `Sampling.IsUnpacked`, `Sampling.unpackResponse_returns`
    * `Sampling.mask_eq_unpackResponse`
    * `Sampling.mask_is_unpacked`
-/

------------------------------------------------------------
-- Fields of a Number
------------------------------------------------------------

namespace LatticeSignature

open scoped Powers

open Outcome Access Buffered

namespace Bits

/- A number is made of its low bits and of those above them. -/
theorem toNat_eq_add
    (width : Nat)
    (bits : Bits) :
    toNat bits =
      toNat (bits.take width) + 2 ^ width * toNat (bits.drop width)
    := by
  induction width generalizing bits with
  | zero => simp [toNat]
  | succ width ih =>
      cases bits with
      | nil => rfl
      | cons bit rest =>
          rw [List.take_succ_cons, List.drop_succ_cons, toNat,
            toNat, ih rest, Nat.pow_succ', Nat.mul_add,
            Nat.add_assoc, Nat.mul_assoc]

/- The low bits make a number of their width. -/
theorem toNat_take_lt
    (width : Nat)
    (bits : Bits) :
    toNat (bits.take width) < 2 ^ width := by
  refine (toNat_lt _).trans_le ?_
  apply Nat.pow_le_pow_right (by decide)
  rw [List.length_take]
  exact Nat.min_le_left _ _

/- The low bits are the remainder. -/
theorem toNat_take
    (width : Nat)
    (bits : Bits) :
    toNat (bits.take width) = toNat bits % 2 ^ width := by
  rw [toNat_eq_add width bits, Nat.add_mul_mod_self_left,
    Nat.mod_eq_of_lt (toNat_take_lt width bits)]

/- The bits above them are the quotient. -/
theorem toNat_drop
    (width : Nat)
    (bits : Bits) :
    toNat (bits.drop width) = toNat bits / 2 ^ width := by
  rw [toNat_eq_add width bits,
    Nat.add_mul_div_left _ _ (Nat.two_pow_pos width),
    Nat.div_eq_of_lt (toNat_take_lt width bits), Nat.zero_add]

/- A field holds bits of the number of the whole string. -/
theorem getElem_fields
    {width count i : Nat}
    (bits : Bits)
    (hi : i < (fields width count bits).length) :
    (fields width count bits)[i] =
      toNat bits / 2 ^ (i * width) % 2 ^ width := by
  induction count generalizing i bits with
  | zero => cases hi
  | succ count ih =>
      cases i with
      | zero =>
          rw [Nat.zero_mul, Nat.pow_zero, Nat.div_one]
          exact toNat_take width bits
      | succ i =>
          have hRest :
              i < (fields width count (bits.drop width)).length :=
            Nat.lt_of_succ_lt_succ hi
          refine (ih (bits.drop width) hRest).trans ?_
          rw [toNat_drop, Nat.div_div_eq_div_mul, ← Nat.pow_add,
            Nat.succ_mul, Nat.add_comm width]

/- Bits and bytes in the same order make the same number. -/
theorem toNat_ofBytes
    (bytes : Bytes) :
    toNat (ofBytes bytes) = Bytes.toNatLE bytes := by
  induction bytes with
  | nil => rfl
  | cons b rest ih =>
      have hLow : (ofBytes (b :: rest)).take 8 = ofNat 8 b.toNat :=
        rfl
      have hHigh : (ofBytes (b :: rest)).drop 8 = ofBytes rest :=
        rfl
      rw [toNat_eq_add 8, hLow, hHigh, ih, toNat_ofNat,
        Nat.mod_eq_of_lt b.toNat_lt]
      rfl

end Bits

/- A coefficient is a part of the number of all bits. -/
theorem Packing.getElem_ofBits
    (width : Nat)
    (s : Bits)
    (i : Fin degree) :
    (ofBits width s)[i] =
      (Bits.toNat s / 2 ^ (i.val * width) % 2 ^ width : Nat) := by
  have hi : i.val < (Bits.fields width degree s).length := by
    simp
  have hEntry :
      (ofBits width s)[i] =
        ((Bits.fields width degree s)[i.val] : Int) := by
    simp [ofBits]
  rw [hEntry, Bits.getElem_fields]

------------------------------------------------------------
-- Unpacked Responses
------------------------------------------------------------

namespace Sampling

/-
  A polynomial and its packed form.  Each one is found from
  the other, and the coefficients lie in the range of masks.
  They are the distances of the fields of one long number
  below `gamma1`, and the fields are those that are read and
  written through words that gather bits.
-/
structure IsUnpacked
    (p : ParameterSet)
    (packed : Bytes)
    (y : Poly) : Prop where
  unpack : Encoding.unpackResponse p packed = .ok y
  pack :
    Encoding.packResponse p p.responsePolyBytes y = .ok packed
  range : Encoding.HalfOpen (-p.gamma1) p.gamma1 y
  entry :
    ∀ i : Fin degree,
      y[i] =
        p.gamma1
          - (Bytes.toNatLE packed / 2 ^ (i.val * p.responseBits)
              % 2 ^ p.responseBits : Nat)
  words :
    ∃ raw : Poly,
      (∀ i : Fin degree, y[i] = p.gamma1 - raw[i])
        ∧ Runs (Packing.unpackFrom p.responseBits packed) (.ok raw)
        ∧ ∀ buffer : Bytes,
          buffer.length = p.responsePolyBytes →
            Leaves (Packing.packInto p.responseBits raw) buffer
              (.ok ()) packed

/- Every string of the right size is unpacked. -/
theorem unpackResponse_returns
    (p : ParameterSet)
    {packed : Bytes}
    (hSize : packed.length = p.responsePolyBytes) :
    Returns (Encoding.unpackResponse p packed)
      (IsUnpacked p packed) := by
  have hWidth := Encoding.isWidth_responseBits p
  obtain ⟨raw, hRaw⟩ :
      ∃ raw,
        Packing.ofBits p.responseBits (Bits.ofBytes packed) = raw :=
    ⟨_, rfl⟩
  have hUnpack := Packing.unpack_eq_ok hWidth hSize
  have hEqOk :=
    Encoding.unpackOffset_eq_ok hWidth
      (Encoding.gamma1_le_two_pow p) hSize
  have hReturns :=
    Encoding.unpackOffset_returns hWidth
      (Encoding.gamma1_le_two_pow p) hSize
  rw [Encoding.gamma1_sub_two_pow] at hReturns
  rw [hRaw] at hUnpack hEqOk
  rcases hReturns.of_eq_ok hEqOk with ⟨hRange, hPack⟩
  have hEntry :
      ∀ i : Fin degree,
        (raw.map fun field => (p.gamma1 : Int) - field)[i] =
          p.gamma1 - raw[i] := by
    intro i
    simp
  refine ⟨_, hEqOk, hEqOk, hPack, hRange, ?_, raw, hEntry, ?_, ?_⟩
  · intro i
    rw [hEntry, ← hRaw, ← Bits.toNat_ofBytes,
      Packing.getElem_ofBits]
  · exact (Packing.unpackFrom_runs _ _).congr hUnpack
  · intro buffer hBuffer
    have hWritten := Packing.packInto_leaves raw hWidth hBuffer
    rw [← hRaw, Packing.bytes_ofBits hSize, hRaw] at hWritten
    exact hWritten

/- A mask is the response in the first bytes of its source. -/
theorem mask_eq_unpackResponse
    {σ : Type}
    [ByteSource σ]
    (p : ParameterSet)
    {s : σ}
    {bytes : Nat → UInt8}
    (hBytes : ∀ i, ByteSource.byte s i = bytes i) :
    mask p s =
      Encoding.unpackResponse p
        ((List.range p.responsePolyBytes).map bytes) := by
  have hRead :
      (ByteSource.read p.responsePolyBytes s).1 =
        (List.range p.responsePolyBytes).map bytes := by
    rw [ByteSource.read_fst, funext hBytes]
  rw [← hRead]
  rfl

------------------------------------------------------------
-- Masks of Streams
------------------------------------------------------------

/- A source that emits bytes is read in blocks of any size. -/
theorem mask_ofSource_returns
    {τ : Type}
    [BlockSource τ]
    (p : ParameterSet)
    {source : τ}
    {bytes : Nat → UInt8}
    (hEmits : BlockSource.Emits source bytes)
    {blockBytes : Nat}
    (hBlock : 0 < blockBytes) :
    Returns (mask p (BlockBuffer.ofSource source blockBytes))
      (IsUnpacked p
        ((List.range p.responsePolyBytes).map bytes)) := by
  rw [mask_eq_unpackResponse p
    (BlockBuffer.byte_ofSource hEmits hBlock)]
  exact unpackResponse_returns p (by simp)

/- A seeded mask is read through a buffer. -/
theorem seededMask_eq
    (p : ParameterSet)
    (kind : StreamKind)
    (seed : Bytes)
    (nonce : UInt16) :
    seededMask p kind seed nonce =
      SchemeError.lift (SeededStream.start kind seed nonce) >>=
        fun stream =>
          mask p (BlockBuffer.ofSource stream kind.blockBytes) := by
  apply seededReader_bind
  intro stream
  rw [mask_eq_unpackResponse p (byte_readers stream kind),
    mask_eq_unpackResponse p fun _ => rfl]

/-
  What a source writes is read in blocks of any size.  The
  mask is then the response in the first bytes, which pack it
  again.  A seeded mask is read in the blocks of its stream.
  It comes out unless the seed is too short, and is the
  response in the first bytes of the sequence of the seed and
  the nonce.
-/
theorem mask_is_unpacked
    {τ : Type}
    [BlockSource τ]
    (p : ParameterSet)
    {source : τ}
    {bytes : Nat → UInt8}
    (hEmits : BlockSource.Emits source bytes)
    {blockBytes : Nat}
    (hBlock : 0 < blockBytes) :
    Returns (mask p (BlockBuffer.ofSource source blockBytes))
        (IsUnpacked p
          ((List.range p.responsePolyBytes).map bytes))
      ∧ ∀ (kind : StreamKind) (seed : Bytes) (nonce : UInt16),
        0 < kind.blockBytes
          ∧ (seededMask p kind seed nonce =
            SchemeError.lift (SeededStream.start kind seed nonce)
              >>= fun stream =>
                mask p
                  (BlockBuffer.ofSource stream kind.blockBytes))
          ∧ Ends
            (fun stop =>
              seed.length < kind.minSeedBytes
                ∧ stop =
                  .error
                    (.primitive
                      (.length "AES-256-CTR seed" 32
                        seed.length)))
            (seededMask p kind seed nonce)
            fun y =>
              ∃ stream bytes,
                SeededStream.start kind seed nonce = .ok stream
                  ∧ SeededStream.IsSequence kind seed nonce bytes
                  ∧ BlockSource.Emits stream bytes
                  ∧ IsUnpacked p
                    ((List.range p.responsePolyBytes).map bytes)
                    y := by
  refine ⟨mask_ofSource_returns p hEmits hBlock, ?_⟩
  intro kind seed nonce
  have hPos := kind.blockBytes_pos
  refine ⟨hPos, seededMask_eq p kind seed nonce, ?_⟩
  rw [seededMask_eq]
  have hStart :=
    (SeededStream.start_ends kind seed nonce).with_eq.mapError
      SchemeError.primitive
  refine (hStart.weaken ?_).bind ?_
  · rintro _ ⟨_, ⟨hShort, rfl⟩, rfl⟩
    exact ⟨hShort, rfl⟩
  · rintro stream ⟨hOk, _, hSequence⟩
    have hMask := mask_ofSource_returns p stream.emits hPos
    refine (hMask.mono ?_).ends
    intro y hy
    exact ⟨stream, _, hOk, hSequence, stream.emits, hy⟩

/- Blocks of 100 bytes, which do not fill a mask evenly. -/
theorem mask_is_unpacked_of_shake256 :
    let stream : SeededStream :=
      .shake256 (Keccak.extend Keccak.rate256 [1, 2, 3])
    BlockSource.Emits stream (ByteSource.byte stream)
      ∧ 0 < 100
      ∧ Returns (mask .mldsa44 (BlockBuffer.ofSource stream 100))
        (IsUnpacked .mldsa44
          ((List.range 576).map (ByteSource.byte stream))) := by
  intro stream
  have hEmits := stream.emits
  refine ⟨hEmits, by decide, ?_⟩
  exact
    (mask_is_unpacked .mldsa44 hEmits (by decide : 0 < 100)).1

end Sampling

end LatticeSignature
