import LatticeSignature.Proofs.Sampling.Challenge
import LatticeSignature.Proofs.Stream.Continuity
import LatticeSignature.Sampling.Coefficients
import Mathlib.Data.Nat.Count

/-
  Rejection takes its candidates from a stream in order.  What
  is sampled are the images of the candidates that are
  accepted first, and no byte is lost or used twice where a
  block of the stream ends.

  Main declarations:
    * `Sampling.filterMap_range_getElem`
    * `Sampling.ReadsCandidates`
    * `Sampling.ReadsCandidates.accepted_eq`
    * `Sampling.AreFirst`, `Sampling.AreFirst.unique`
    * `Sampling.triple`, `Sampling.nibble`
    * `Sampling.drawResidue_reads`, `Sampling.drawSmall_reads`
    * `Sampling.toNat_tripleWord`, `Sampling.candidates_in_words`
    * `Sampling.FindsFirst`, `Sampling.samplers_congr`
    * `Sampling.seededReader_bind`, `Sampling.seededSamplers_eq`
    * `Sampling.rejection_keeps_order`
-/

------------------------------------------------------------
-- Accepted Candidates
------------------------------------------------------------

namespace LatticeSignature

open Outcome

namespace Sampling

variable {ε σ β : Type}

/- As many values are accepted as are counted. -/
theorem length_filterMap_range
    (f : Nat → Option β)
    (m : Nat) :
    ((List.range m).filterMap f).length =
      Nat.count (fun k => (f k).isSome = true) m := by
  induction m with
  | zero => rfl
  | succ m ih =>
      rw [List.range_succ, List.filterMap_append,
        List.length_append, ih, Nat.count_succ]
      cases hValue : f m <;> simp [hValue]

/- A value follows those that are accepted before it. -/
theorem filterMap_range_getElem
    (f : Nat → Option β)
    (m : Nat)
    {i : Nat}
    (hi : i < ((List.range m).filterMap f).length) :
    ∃ k,
      f k = some ((List.range m).filterMap f)[i]
        ∧ Nat.count (fun j => (f j).isSome = true) k = i := by
  induction m with
  | zero => cases hi
  | succ m ih =>
      simp only [List.range_succ, List.filterMap_append] at hi ⊢
      by_cases hFront : i < ((List.range m).filterMap f).length
      · rw [List.getElem_append_left hFront]
        exact ih hFront
      · cases hValue : f m with
        | none => simp [hValue] at hi hFront; omega
        | some x =>
            have hLast :
                i = ((List.range m).filterMap f).length := by
              simp [hValue] at hi hFront
              omega
            subst hLast
            refine ⟨m, ?_, (length_filterMap_range f m).symm⟩
            simp [hValue]

/- Equal accepted values fill equal vectors. -/
theorem collectVector_congr
    {τ : Type}
    {draw : σ → List β × σ}
    {draw' : τ → List β × τ}
    {draws : Nat}
    {s : σ}
    {t : τ}
    (hSame : accepted draw draws s = accepted draw' draws t)
    (wanted : Nat) :
    (collectVector draw draws wanted s
        : Outcome ε (Vector β wanted)) =
      collectVector draw' draws wanted t := by
  have hLists :
      Vector.toList <$>
          (collectVector draw draws wanted s
            : Outcome ε (Vector β wanted)) =
        Vector.toList <$> collectVector draw' draws wanted t := by
    rw [map_toList_collectVector, map_toList_collectVector,
      collect_eq, collect_eq, hSame]
  revert hLists
  cases (collectVector draw draws wanted s
      : Outcome ε (Vector β wanted)) <;>
    cases (collectVector draw' draws wanted t
      : Outcome ε (Vector β wanted)) <;>
    intro hLists
  · cases hLists
    rfl
  · cases hLists
  · cases hLists
  · exact
      congrArg Except.ok (Vector.toList_inj.1 (Except.ok.inj hLists))

------------------------------------------------------------
-- Candidates of a Byte Sequence
------------------------------------------------------------

variable [ByteSource σ]

/-
  A draw reads `size` bytes and finds `width` candidates in
  them.  The candidates that come later stand in the bytes
  that follow.
-/
structure ReadsCandidates
    (draw : σ → List β × σ)
    (value : (Nat → UInt8) → Nat → Option β)
    (size width : Nat) : Prop where
  values :
    ∀ s,
      (draw s).1 =
        (List.range width).filterMap (value (ByteSource.byte s))
  rest : ∀ s, (draw s).2 = ByteSource.after size s
  later :
    ∀ bytes k,
      value (fun i => bytes (size + i)) k = value bytes (width + k)

namespace ReadsCandidates

variable {draw : σ → List β × σ}
variable {value : (Nat → UInt8) → Nat → Option β}
variable {size width : Nat}

/- All draws together read the candidates in order. -/
theorem accepted_eq
    (h : ReadsCandidates draw value size width)
    (draws : Nat)
    (s : σ) :
    accepted draw draws s =
      (List.range (draws * width)).filterMap
        (value (ByteSource.byte s)) := by
  induction draws generalizing s with
  | zero =>
      rw [Nat.zero_mul]
      rfl
  | succ draws ih =>
      have hLater :
          value (ByteSource.byte (ByteSource.after size s)) =
            fun k => value (ByteSource.byte s) (width + k) := by
        rw [funext fun i => ByteSource.byte_after size i s]
        exact funext (h.later _)
      rw [accepted, h.values, h.rest, ih, hLater, Nat.succ_mul,
        Nat.add_comm, List.range_add, List.filterMap_append,
        List.filterMap_map]
      rfl

/-
  The values are those of the candidates that are accepted
  first.  There are none if too few of those that are drawn
  are accepted.
-/
theorem collectVector_ends
    (h : ReadsCandidates draw value size width)
    (draws wanted : Nat)
    {s : σ}
    {values : Nat → Option β}
    (hValues : value (ByteSource.byte s) = values) :
    Ends
      (fun stop =>
        stop = .exhausted
          ∧ Nat.count (fun k => (values k).isSome = true)
              (draws * width) < wanted)
      (collectVector draw draws wanted s
        : Outcome ε (Vector β wanted))
      fun v =>
        ∀ i : Fin wanted,
          ∃ k,
            values k = some v[i]
              ∧ Nat.count (fun j => (values j).isSome = true) k =
                i.val := by
  have hList :=
    map_toList_collectVector (ε := ε) draw draws wanted s
  rw [collect_eq, h.accepted_eq, hValues] at hList
  cases hOk :
      (collectVector draw draws wanted s
        : Outcome ε (Vector β wanted)) with
  | ok v =>
      refine Or.inl ⟨v, rfl, ?_⟩
      rw [hOk] at hList
      split at hList
      · rename_i hEnough
        have hTake := Except.ok.inj hList
        intro i
        have hi :
            i.val <
              ((List.range (draws * width)).filterMap
                values).length :=
          i.isLt.trans_le hEnough
        rcases filterMap_range_getElem values _ hi with
          ⟨k, hk, hCount⟩
        refine ⟨k, hk.trans (congrArg some ?_), hCount⟩
        have hEntry : v.toList[i.val]? = some v[i] := by simp
        rw [hTake, List.getElem?_take_of_lt i.isLt,
          List.getElem?_eq_getElem hi] at hEntry
        exact Option.some.inj hEntry
      · cases hList
  | error stop =>
      refine Or.inr ⟨stop, rfl, ?_⟩
      rw [hOk] at hList
      split at hList
      · cases hList
      · rename_i hFew
        rw [length_filterMap_range] at hFew
        exact ⟨Except.error.inj hList, not_le.1 hFew⟩

/- Equal bytes lead to equal values. -/
theorem collectVector_eq
    {τ : Type}
    [ByteSource τ]
    {draw' : τ → List β × τ}
    (h : ReadsCandidates draw value size width)
    (h' : ReadsCandidates draw' value size width)
    (draws wanted : Nat)
    {s : σ}
    {t : τ}
    (hBytes : ∀ i, ByteSource.byte s i = ByteSource.byte t i) :
    (collectVector draw draws wanted s
        : Outcome ε (Vector β wanted)) =
      collectVector draw' draws wanted t := by
  apply collectVector_congr
  rw [h.accepted_eq, h'.accepted_eq, funext hBytes]

end ReadsCandidates

------------------------------------------------------------
-- First Accepted Candidates
------------------------------------------------------------

/- The image of a candidate that is below a bound. -/
def imageBelow
    (bound : Nat)
    (image : Nat → Int)
    (candidate : Nat) : Option Int :=
  if candidate < bound then some (image candidate) else none

/-
  The entries are the images of the candidates below a bound
  that come first: as many of them precede that of an entry as
  there are entries before it.
-/
def AreFirst
    {n : Nat}
    (bound : Nat)
    (image : Nat → Int)
    (candidate : Nat → Nat)
    (v : Vector Int n) : Prop :=
  ∀ i : Fin n,
    ∃ k,
      candidate k < bound
        ∧ Nat.count (fun j => candidate j < bound) k = i.val
        ∧ v[i] = image (candidate k)

/- No other vector has these entries. -/
theorem AreFirst.unique
    {n bound : Nat}
    {image : Nat → Int}
    {candidate : Nat → Nat}
    {v w : Vector Int n}
    (h : AreFirst bound image candidate v)
    (h' : AreFirst bound image candidate w) :
    v = w := by
  apply Vector.ext
  intro i hi
  rcases h ⟨i, hi⟩ with ⟨k, hBelow, hCount, hEntry⟩
  rcases h' ⟨i, hi⟩ with ⟨k', hBelow', hCount', hEntry'⟩
  have hSame : k = k' :=
    Nat.count_injective hBelow hBelow' (hCount.trans hCount'.symm)
  rw [← hSame] at hEntry'
  exact hEntry.trans hEntry'.symm

/- There is an image below the bound only. -/
theorem isSome_imageBelow
    (bound : Nat)
    (image : Nat → Int)
    (candidate : Nat) :
    (imageBelow bound image candidate).isSome = true
      ↔ candidate < bound := by
  unfold imageBelow
  split <;> simp [*]

/- Accepted candidates are counted alike. -/
theorem count_isSome_imageBelow
    (bound : Nat)
    (image : Nat → Int)
    (candidate : Nat → Nat)
    (k : Nat) :
    Nat.count
        (fun j =>
          (imageBelow bound image (candidate j)).isSome = true)
        k =
      Nat.count (fun j => candidate j < bound) k := by
  simp only [Nat.count_eq_card_filter_range, isSome_imageBelow]

/- A sampler whose candidates are accepted below a bound. -/
theorem ReadsCandidates.areFirst
    {n : Nat}
    {draw : σ → List Int × σ}
    {bound : Nat}
    {image : Nat → Int}
    {candidate : (Nat → UInt8) → Nat → Nat}
    {size width : Nat}
    (h :
      ReadsCandidates draw
        (fun bytes k =>
          imageBelow bound image (candidate bytes k))
        size width)
    (draws : Nat)
    {s : σ}
    {bytes : Nat → UInt8}
    (hBytes : ∀ i, ByteSource.byte s i = bytes i) :
    Ends
      (fun stop =>
        stop = .exhausted
          ∧ Nat.count (fun k => candidate bytes k < bound)
              (draws * width) < n)
      (collectVector draw draws n s : Outcome ε (Vector Int n))
      fun v =>
        ∀ w, AreFirst bound image (candidate bytes) w ↔ w = v := by
  have hValues :
      (fun k =>
          imageBelow bound image
            (candidate (ByteSource.byte s) k)) =
        fun k => imageBelow bound image (candidate bytes k) := by
    rw [funext hBytes]
  have hEnds := h.collectVector_ends (ε := ε) draws n hValues
  simp only [count_isSome_imageBelow] at hEnds
  refine hEnds.mono ?_
  intro v hv
  have hFirst : AreFirst bound image (candidate bytes) v := by
    intro i
    rcases hv i with ⟨k, hImage, hCount⟩
    unfold imageBelow at hImage
    split at hImage
    · rename_i hBelow
      exact ⟨k, hBelow, hCount, (Option.some.inj hImage).symm⟩
    · cases hImage
  intro w
  constructor
  · exact fun hOther => hOther.unique hFirst
  · rintro rfl
    exact hFirst

------------------------------------------------------------
-- Triples and Nibbles
------------------------------------------------------------

/- The number in the 23 low bits of three bytes in a row. -/
def triple
    (bytes : Nat → UInt8)
    (k : Nat) : Nat :=
  ((bytes (3 * k)).toNat
    + 256 * (bytes (3 * k + 1)).toNat
    + 65536 * (bytes (3 * k + 2)).toNat) % 8388608

/- The halves of the bytes, the lower one of each byte first. -/
def nibble
    (bytes : Nat → UInt8)
    (k : Nat) : Nat :=
  if k % 2 = 0 then
    (bytes (k / 2)).toNat % 16
  else
    (bytes (k / 2)).toNat / 16

/- One candidate is read from three bytes. -/
theorem drawResidue_reads :
    ReadsCandidates (drawResidue : σ → List Int × σ)
      (fun bytes k =>
        imageBelow 8380417 (fun t => t) (triple bytes k))
      3 1 where
  values := by
    intro s
    have hRead :
        (ByteSource.read 3 s).1 =
          [ByteSource.byte s 0, ByteSource.byte s 1,
            ByteSource.byte s 2] :=
      rfl
    have hTriple :
        ((Bytes.toNatLE (ByteSource.read 3 s).1 : Int)
            % 8388608) =
          (triple (ByteSource.byte s) 0 : Nat) := by
      simp only [hRead, Bytes.toNatLE, triple, Nat.mul_zero,
        Nat.zero_add]
      omega
    unfold drawResidue imageBelow
    dsimp only
    rw [hTriple, List.range_one]
    by_cases hBelow : triple (ByteSource.byte s) 0 < 8380417
    · have hResidue :
          (triple (ByteSource.byte s) 0 : Int) < Field.q := by
        unfold Field.q
        omega
      simp [hBelow, hResidue]
    · have hResidue :
          ¬ (triple (ByteSource.byte s) 0 : Int) < Field.q := by
        unfold Field.q
        omega
      simp [hBelow, hResidue]
  rest := by
    intro s
    exact ByteSource.read_snd 3 s
  later := by
    intro bytes k
    have hPlace : ∀ j, 3 + (3 * k + j) = 3 * (1 + k) + j := by
      intro j
      omega
    have hFirst := hPlace 0
    simp only [triple, hPlace]
    rw [Nat.add_zero, Nat.add_zero] at hFirst
    rw [hFirst]

/- Two candidates are read from one byte. -/
theorem drawSmall_reads
    (eta : Nat) :
    ReadsCandidates (drawSmall eta : σ → List Int × σ)
      (fun bytes k => smallOfNibble eta (nibble bytes k))
      1 2 where
  values := by
    intro s
    rfl
  rest := by
    intro s
    rfl
  later := by
    intro bytes k
    have hHalf : (2 + k) / 2 = 1 + k / 2 := by omega
    have hLow : (2 + k) % 2 = k % 2 := by omega
    simp only [nibble, hHalf, hLow]

/- The narrower range of secrets rejects one value. -/
theorem smallOfNibble_two
    (t : Nat) :
    smallOfNibble 2 t =
      imageBelow 15 (fun t => 2 - (t % 5 : Nat)) t := by
  simp [smallOfNibble, imageBelow]

/- The wider range rejects seven values. -/
theorem smallOfNibble_four
    (t : Nat) :
    smallOfNibble 4 t = imageBelow 9 (fun t => 4 - (t : Int)) t := by
  simp [smallOfNibble, imageBelow]

------------------------------------------------------------
-- Candidates in Words
------------------------------------------------------------

/- The candidate in three bytes, by shifts and a mask. -/
def tripleWord
    (b₀ b₁ b₂ : UInt8) : UInt32 :=
  (b₀.toUInt32 ||| b₁.toUInt32 <<< 8 ||| b₂.toUInt32 <<< 16)
    &&& 0x7FFFFF

/- A byte is put before the bits of a smaller number. -/
theorem toNat_or_shiftLeft
    (x : UInt32)
    (b : UInt8)
    (place : UInt32)
    {bits : Nat}
    (hPlace : place.toNat % 32 = bits)
    (hBits : bits ≤ 24)
    (hLow : x.toNat < 2 ^ bits) :
    (x ||| b.toUInt32 <<< place).toNat =
      x.toNat + 2 ^ bits * b.toNat := by
  have hByte := b.toNat_lt
  have hProduct : 2 ^ bits * b.toNat < 2 ^ 32 := by
    calc
      2 ^ bits * b.toNat ≤ 2 ^ 24 * 255 :=
        Nat.mul_le_mul (Nat.pow_le_pow_right (by decide) hBits)
          (Nat.le_of_lt_succ hByte)
      _ < 2 ^ 32 := by decide
  rw [UInt32.toNat_or, UInt32.toNat_shiftLeft, hPlace,
    UInt8.toNat_toUInt32, Nat.shiftLeft_eq, Nat.mul_comm,
    Nat.mod_eq_of_lt hProduct, Nat.or_comm,
    ← Nat.two_pow_add_eq_or_of_lt hLow, Nat.add_comm]

/- The word is the number of the 23 low bits. -/
theorem toNat_tripleWord
    (b₀ b₁ b₂ : UInt8) :
    (tripleWord b₀ b₁ b₂).toNat =
      (b₀.toNat + 256 * b₁.toNat + 65536 * b₂.toNat)
        % 8388608 := by
  have hFirst := b₀.toNat_lt
  have hSecond := b₁.toNat_lt
  have hTwo :
      (b₀.toUInt32 ||| b₁.toUInt32 <<< 8).toNat =
        b₀.toNat + 256 * b₁.toNat :=
    toNat_or_shiftLeft b₀.toUInt32 b₁ 8 rfl (by decide) hFirst
  have hLow :
      (b₀.toUInt32 ||| b₁.toUInt32 <<< 8).toNat < 65536 := by
    rw [hTwo]
    omega
  have hThree :=
    toNat_or_shiftLeft _ b₂ 16 (rfl : _ = 16) (by decide) hLow
  rw [hTwo] at hThree
  rw [tripleWord, UInt32.toNat_and, hThree]
  exact Nat.and_two_pow_sub_one_eq_mod _ 23

/- The halves of a byte, by a mask and a shift. -/
theorem toNat_halves
    (b : UInt8) :
    (b &&& 0x0F).toNat = b.toNat % 16
      ∧ (b >>> 4).toNat = b.toNat / 16 := by
  constructor
  · rw [UInt8.toNat_and]
    exact Nat.and_two_pow_sub_one_eq_mod _ 4
  · rw [UInt8.toNat_shiftRight]
    exact Nat.shiftRight_eq_div_pow _ 4

/- Candidates are computed in words. -/
theorem candidates_in_words
    (bytes : Nat → UInt8)
    (k : Nat) :
    triple bytes k =
        (tripleWord (bytes (3 * k)) (bytes (3 * k + 1))
          (bytes (3 * k + 2))).toNat
      ∧ nibble bytes (2 * k) = (bytes k &&& 0x0F).toNat
      ∧ nibble bytes (2 * k + 1) = (bytes k >>> 4).toNat := by
  have hLow : 2 * k % 2 = 0 := by omega
  have hHigh : ¬ (2 * k + 1) % 2 = 0 := by omega
  have hHalf : 2 * k / 2 = k := by omega
  have hSame : (2 * k + 1) / 2 = k := by omega
  rcases toNat_halves (bytes k) with ⟨hAnd, hShift⟩
  rw [toNat_tripleWord, hAnd, hShift]
  simp only [triple, nibble, hLow, hHigh, hHalf, hSame, if_true,
    if_false, and_self]

/- A remainder, by a product and a shift. -/
theorem sub_shiftRight_eq_mod
    {t : Nat}
    (ht : t < 15) :
    (t : Int) - (205 * (t : Int)) >>> (10 : Nat) * 5 =
      (t % 5 : Nat) := by
  rw [Int.shiftRight_eq_div_pow]
  omega

------------------------------------------------------------
-- Samplers over Blocks
------------------------------------------------------------

/-
  A sampler yields the images of the candidates that are
  accepted first, and these alone.  It stops without a result
  only if too few of those that it draws are accepted.
-/
def FindsFirst
    (bound : Nat)
    (image : Nat → Int)
    (candidate : Nat → Nat)
    (drawn : Nat)
    (sample : Outcome ε Poly) : Prop :=
  Ends
    (fun stop =>
      stop = .exhausted
        ∧ Nat.count (fun k => candidate k < bound) drawn < degree)
    sample
    fun f => ∀ w, AreFirst bound image candidate w ↔ w = f

/- Uniform polynomials keep the order of the triples. -/
theorem uniform_findsFirst
    {s : σ}
    {bytes : Nat → UInt8}
    (hBytes : ∀ i, ByteSource.byte s i = bytes i) :
    FindsFirst 8380417 (fun t => t) (triple bytes) maxDraws
      (uniform s : Outcome ε Poly) :=
  drawResidue_reads.areFirst maxDraws hBytes

/- Small polynomials keep the order of the halves of bytes. -/
theorem small_two_findsFirst
    {s : σ}
    {bytes : Nat → UInt8}
    (hBytes : ∀ i, ByteSource.byte s i = bytes i) :
    FindsFirst 15 (fun t => 2 - (t % 5 : Nat)) (nibble bytes)
      (maxDraws * 2) (small 2 s : Outcome ε Poly) := by
  have hReads := drawSmall_reads (σ := σ) 2
  simp only [smallOfNibble_two] at hReads
  exact hReads.areFirst maxDraws hBytes

/- The same for the wider range. -/
theorem small_four_findsFirst
    {s : σ}
    {bytes : Nat → UInt8}
    (hBytes : ∀ i, ByteSource.byte s i = bytes i) :
    FindsFirst 9 (fun t => 4 - (t : Int)) (nibble bytes)
      (maxDraws * 2) (small 4 s : Outcome ε Poly) := by
  have hReads := drawSmall_reads (σ := σ) 4
  simp only [smallOfNibble_four] at hReads
  exact hReads.areFirst maxDraws hBytes

/- A sampler sees the bytes of its source alone. -/
theorem samplers_congr
    {τ : Type}
    [ByteSource τ]
    {s : σ}
    {t : τ}
    (hBytes : ∀ i, ByteSource.byte s i = ByteSource.byte t i) :
    (uniform s : Outcome ε Poly) = uniform t
      ∧ ∀ eta, (small eta s : Outcome ε Poly) = small eta t := by
  constructor
  · exact
      drawResidue_reads.collectVector_eq drawResidue_reads
        maxDraws degree hBytes
  · intro eta
    exact
      (drawSmall_reads eta).collectVector_eq (drawSmall_reads eta)
        maxDraws degree hBytes

------------------------------------------------------------
-- Seeded Samplers
------------------------------------------------------------

/- Readers of either kind hand out the bytes of a stream. -/
theorem byte_readers
    (stream : SeededStream)
    (kind : StreamKind)
    (i : Nat) :
    ByteSource.byte (BlockReader.ofSource stream kind.blockBytes)
        i =
      ByteSource.byte (BlockBuffer.ofSource stream kind.blockBytes)
        i := by
  rw [BlockReader.byte_ofSource,
    BlockBuffer.byte_ofSource stream.emits
      kind.blockBytes_pos]

/- A seeded sampler can read its stream through a buffer. -/
theorem seededReader_bind
    {f : BlockReader SeededStream → Outcome SchemeError β}
    {g : BlockBuffer SeededStream → Outcome SchemeError β}
    {kind : StreamKind}
    (hSame :
      ∀ stream,
        f (.ofSource stream kind.blockBytes) =
          g (.ofSource stream kind.blockBytes))
    (seed : Bytes)
    (nonce : UInt16) :
    seededReader kind seed nonce >>= f =
      SchemeError.lift (SeededStream.start kind seed nonce) >>=
        fun stream => g (.ofSource stream kind.blockBytes) := by
  unfold seededReader
  cases SchemeError.lift (SeededStream.start kind seed nonce) with
  | ok stream => exact hSame stream
  | error stop => rfl

/- Seeded samplers read their stream through a buffer. -/
theorem seededSamplers_eq
    (kind : StreamKind)
    (seed : Bytes)
    (nonce : UInt16) :
    (seededUniform kind seed nonce =
        SchemeError.lift (SeededStream.start kind seed nonce) >>=
          fun stream =>
            uniform (BlockBuffer.ofSource stream kind.blockBytes))
      ∧ ∀ eta,
        seededSmall eta kind seed nonce =
          SchemeError.lift (SeededStream.start kind seed nonce) >>=
            fun stream =>
              small eta
                (BlockBuffer.ofSource stream kind.blockBytes) := by
  have hSame :=
    fun stream =>
      samplers_congr (ε := SchemeError) (byte_readers stream kind)
  constructor
  · exact
      seededReader_bind (fun stream => (hSame stream).1) seed nonce
  · intro eta
    exact
      seededReader_bind (fun stream => (hSame stream).2 eta) seed
        nonce

/-
  A source that emits one byte sequence is read in blocks of
  any size.  The uniform polynomial has the numbers below `q`
  that come first among those in the triples of bytes, and a
  small one has the images of the halves of bytes that are
  accepted first.  Neither the source nor the size of its
  blocks makes a difference, as long as the sequence is the
  same.  A seeded sampler reads its stream in such blocks.
  The last parts find the candidates and images in words.
-/
theorem rejection_keeps_order
    {τ : Type}
    [BlockSource τ]
    {source : τ}
    {bytes : Nat → UInt8}
    (hEmits : BlockSource.Emits source bytes)
    {blockBytes : Nat}
    (hBlock : 0 < blockBytes) :
    let reader := BlockBuffer.ofSource source blockBytes
    FindsFirst 8380417 (fun t => t) (triple bytes) maxDraws
        (uniform reader : Outcome ε Poly)
      ∧ FindsFirst 15 (fun t => 2 - (t % 5 : Nat)) (nibble bytes)
        (maxDraws * 2) (small 2 reader : Outcome ε Poly)
      ∧ FindsFirst 9 (fun t => 4 - (t : Int)) (nibble bytes)
        (maxDraws * 2) (small 4 reader : Outcome ε Poly)
      ∧ (∀ (υ : Type) [BlockSource υ] (other : υ) (size : Nat),
        BlockSource.Emits other bytes → 0 < size →
          let reader' := BlockBuffer.ofSource other size
          (uniform reader' : Outcome ε Poly) = uniform reader
            ∧ ∀ eta,
              (small eta reader' : Outcome ε Poly) =
                small eta reader)
      ∧ (∀ (kind : StreamKind) (seed : Bytes) (nonce : UInt16),
        0 < kind.blockBytes
          ∧ (∀ stream : SeededStream,
            BlockSource.Emits stream (ByteSource.byte stream))
          ∧ (seededUniform kind seed nonce =
            SchemeError.lift (SeededStream.start kind seed nonce)
              >>= fun stream =>
                uniform
                  (BlockBuffer.ofSource stream kind.blockBytes))
          ∧ ∀ eta,
            seededSmall eta kind seed nonce =
              SchemeError.lift
                  (SeededStream.start kind seed nonce)
                >>= fun stream =>
                  small eta
                    (BlockBuffer.ofSource stream kind.blockBytes))
      ∧ (∀ k,
        triple bytes k =
            (tripleWord (bytes (3 * k)) (bytes (3 * k + 1))
              (bytes (3 * k + 2))).toNat
          ∧ nibble bytes (2 * k) = (bytes k &&& 0x0F).toNat
          ∧ nibble bytes (2 * k + 1) = (bytes k >>> 4).toNat)
      ∧ ∀ t < 15,
        ((t % 5 : Nat) : Int) =
          t - (205 * (t : Int)) >>> (10 : Nat) * 5 := by
  have hBytes :
      ∀ i,
        ByteSource.byte (BlockBuffer.ofSource source blockBytes)
            i =
          bytes i :=
    BlockBuffer.byte_ofSource hEmits hBlock
  refine ⟨uniform_findsFirst hBytes, small_two_findsFirst hBytes,
    small_four_findsFirst hBytes, ?_, ?_, ?_, ?_⟩
  · intro υ _ other size hOther hSize
    refine samplers_congr fun i => ?_
    rw [BlockBuffer.byte_ofSource hOther hSize, hBytes]
  · intro kind seed nonce
    exact
      ⟨kind.blockBytes_pos, SeededStream.emits,
        seededSamplers_eq kind seed nonce⟩
  · exact candidates_in_words bytes
  · intro t ht
    exact (sub_shiftRight_eq_mod ht).symm

/- A stream in blocks of 64 bytes and in blocks of 136 bytes. -/
theorem rejection_keeps_order_of_shake256 :
    let stream : SeededStream :=
      .shake256 (Keccak.extend Keccak.rate256 [1, 2, 3])
    0 < 64
      ∧ BlockSource.Emits stream (ByteSource.byte stream)
      ∧ (uniform (BlockBuffer.ofSource stream 136)
          : Outcome SchemeError Poly) =
        uniform (BlockBuffer.ofSource stream 64) := by
  intro stream
  have hEmits := stream.emits
  refine ⟨by decide, hEmits, ?_⟩
  have hOrder :=
    rejection_keeps_order (ε := SchemeError) hEmits
      (by decide : 0 < 64)
  exact (hOrder.2.2.2.1 _ stream 136 hEmits (by decide)).1

end Sampling

end LatticeSignature
