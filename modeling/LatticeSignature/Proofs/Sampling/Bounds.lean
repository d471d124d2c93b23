import LatticeSignature.Proofs.Access
import LatticeSignature.Proofs.Stream.Continuity
import LatticeSignature.Sampling.Challenge
import LatticeSignature.Sampling.Expansion

/-
  Samplers read their bytes from a buffer, at a position that
  moves on, and write their coefficients at a running index.
  Positions and indices stay in bounds, whatever the size of
  the buffer is.

  Main declarations:
    * `BlockBuffer.Represents`
    * `Guarded.nextByte`, `Guarded.readBytes`
    * `Guarded.nextByte_runs`, `Guarded.readBytes_runs`
    * `Guarded.fill`, `Guarded.fill_runs`
    * `Guarded.place`, `Guarded.challenge_runs`
    * `Guarded.matrix_runs`
    * `Guarded.secrets_runs`, `Guarded.masks_runs`
-/

------------------------------------------------------------
-- Bytes of a Buffer
------------------------------------------------------------

namespace LatticeSignature

open Outcome Access

namespace BlockBuffer

variable {σ τ : Type}
variable [BlockSource σ]

/- The buffer holds the bytes that another source hands out. -/
def Represents
    [ByteSource τ]
    (r : BlockBuffer σ)
    (s : τ) : Prop :=
  r.Holds (ByteSource.byte s)

/- Two readers of one source, neither of which loses a byte. -/
theorem represents_ofSource
    [ByteSource σ]
    {source : σ}
    {blockBytes : Nat}
    (hEmits : BlockSource.Emits source (ByteSource.byte source))
    (hBlock : 0 < blockBytes) :
    (ofSource source blockBytes).Represents
      (BlockReader.ofSource source blockBytes) := by
  unfold Represents
  rw [funext (BlockReader.byte_ofSource source blockBytes)]
  exact holds_ofSource hEmits hBlock

end BlockBuffer

namespace Guarded

variable {ε σ τ ρ β : Type}

section Buffers

variable [BlockSource σ]

/- The byte at the position, which is in the refilled block. -/
def nextByte
    (r : BlockBuffer σ) :
    Access ε (UInt8 × BlockBuffer σ) := do
  let r := r.refill
  let b ← byteAt r.block r.position
  return (b, { r with position := r.position + 1 })

/- The next `count` bytes. -/
def readBytes :
    Nat →
      BlockBuffer σ →
      Access ε (Bytes × BlockBuffer σ)
  | 0, r => return ([], r)
  | count + 1, r => do
      let (b, r) ← nextByte r
      let (rest, r) ← readBytes count r
      return (b :: rest, r)

/- A byte is read in bounds. -/
theorem nextByte_runs
    {r : BlockBuffer σ}
    {bytes : Nat → UInt8}
    (h : r.Holds bytes) :
    Runs (nextByte r : Access ε (UInt8 × BlockBuffer σ))
      (.ok (ByteSource.next r)) := by
  have hWithin := h.refill.2
  have hByte :
      r.refill.block.getD r.refill.position 0 =
        r.refill.block[r.refill.position] :=
    (List.getElem_eq_getD 0).symm
  refine (runs_byteAt hWithin).ok_bind ?_
  rw [← hByte]
  exact runs_pure _

variable [ByteSource τ]

/- The byte is the next one of the source, too. -/
theorem nextByte_follows
    {r : BlockBuffer σ}
    {s : τ}
    (h : r.Represents s) :
    ∃ r',
      Runs (nextByte r : Access ε (UInt8 × BlockBuffer σ))
          (.ok ((ByteSource.next s).1, r'))
        ∧ r'.Represents (ByteSource.next s).2 := by
  rcases h.next with ⟨hByte, hRest⟩
  have hSame :
      ByteSource.next r =
        ((ByteSource.next s).1, (ByteSource.next r).2) :=
    Prod.ext hByte rfl
  refine ⟨(ByteSource.next r).2, ?_, hRest⟩
  exact (nextByte_runs h).congr (congrArg Except.ok hSame)

/- A string of bytes is read in bounds. -/
theorem readBytes_runs
    (count : Nat)
    {r : BlockBuffer σ}
    {s : τ}
    (h : r.Represents s) :
    ∃ r',
      Runs
          (readBytes count r : Access ε (Bytes × BlockBuffer σ))
          (.ok ((ByteSource.read count s).1, r'))
        ∧ r'.Represents (ByteSource.read count s).2 := by
  induction count generalizing r s with
  | zero => exact ⟨r, runs_pure _, h⟩
  | succ count ih =>
      rcases nextByte_follows (ε := ε) h with ⟨r', hNext, h'⟩
      rcases ih h' with ⟨r'', hRest, h''⟩
      refine ⟨r'', ?_, h''⟩
      exact hNext.ok_bind (hRest.ok_bind (runs_pure _))

end Buffers

------------------------------------------------------------
-- Accepted Values
------------------------------------------------------------

/- Write values at consecutive indices. -/
def putAll
    {n : Nat} :
    List β →
      Vector β n →
      (index : Nat) →
      Access ε (Vector β n)
  | [], filled, _ => return filled
  | value :: rest, filled, index => do
      let filled ← putEntry filled index value
      putAll rest filled (index + 1)

/-
  Write accepted values from an index on until the vector is
  full.  Values beyond its end are dropped.
-/
def fill
    {n : Nat}
    (draw : ρ → Access ε (List β × ρ)) :
    (draws : Nat) →
      Vector β n →
      (index : Nat) →
      ρ →
      Access ε (Vector β n)
  | 0, filled, index, _ =>
      if index < n then
        ofOutcome (.error .exhausted)
      else
        return filled
  | draws + 1, filled, index, r =>
      if index < n then do
        let (values, r) ← draw r
        let taken := values.take (n - index)
        let filled ← putAll taken filled index
        fill draw draws filled (index + taken.length) r
      else
        return filled

/- The values stand behind those that were there before. -/
theorem putAll_runs
    {n : Nat}
    (values : List β)
    (filled : Vector β n)
    {index : Nat}
    (h : index + values.length ≤ n) :
    ∃ w,
      Runs (putAll values filled index : Access ε (Vector β n))
          (.ok w)
        ∧ w.toList.take (index + values.length) =
          filled.toList.take index ++ values := by
  induction values generalizing filled index with
  | nil => exact ⟨filled, runs_pure _, by simp⟩
  | cons value rest ih =>
      rw [List.length_cons] at h
      have hLt : index < n := by omega
      have hLength : index + 1 + rest.length ≤ n := by omega
      rcases ih (filled.set index value hLt) hLength with
        ⟨w, hRest, hTake⟩
      refine ⟨w, (runs_putEntry filled value hLt).ok_bind hRest,
        ?_⟩
      have hCount :
          index + (value :: rest).length =
            index + 1 + rest.length := by
        rw [List.length_cons]
        omega
      have hFront :
          (filled.set index value hLt).toList.take (index + 1) =
            filled.toList.take index ++ [value] := by
        rw [Vector.toList_set, List.take_succ_eq_append_getElem
          (by simpa using hLt), List.take_set_of_le (le_refl _),
          List.getElem_set_self]
      rw [hCount, hTake, hFront, List.append_assoc]
      rfl

/- A full vector is complete. -/
theorem follows_of_full
    {n : Nat}
    (draw' : σ → List β × σ)
    (draws : Nat)
    (filled : Vector β n)
    {index : Nat}
    (hFull : n ≤ index)
    (s : σ) :
    Follows
      (fun w values =>
        w.toList = filled.toList.take index ++ values)
      (return filled : Access ε (Vector β n))
      (Sampling.collect draw' draws (n - index) s) := by
  rw [Nat.sub_eq_zero_of_le hFull, Sampling.collect_eq,
    if_pos (Nat.zero_le _)]
  refine Follows.of_ok (runs_pure _) ?_
  have hTake : filled.toList.take index = filled.toList :=
    List.take_of_length_le (by simpa using hFull)
  simp [hTake]

/-
  The vector is filled with the values that the sampler
  collects, when both draw the same values.
-/
theorem fill_follows
    {n : Nat}
    {R : ρ → σ → Prop}
    {draw : ρ → Access ε (List β × ρ)}
    {draw' : σ → List β × σ}
    (hDraw :
      ∀ {r s}, R r s →
        ∃ r',
          Runs (draw r) (.ok ((draw' s).1, r'))
            ∧ R r' (draw' s).2)
    (draws : Nat)
    (filled : Vector β n)
    {index : Nat}
    (hIndex : index ≤ n)
    {r : ρ}
    {s : σ}
    (h : R r s) :
    Follows
      (fun w values =>
        w.toList = filled.toList.take index ++ values)
      (fill draw draws filled index r)
      (Sampling.collect draw' draws (n - index) s) := by
  induction draws generalizing filled index r s with
  | zero =>
      unfold fill
      split
      · rename_i hLt
        obtain ⟨k, hk⟩ : ∃ k, n - index = k + 1 :=
          ⟨n - index - 1, by omega⟩
        rw [hk]
        exact Or.inr ⟨_, runs_ofOutcome _, rfl⟩
      · rename_i hEnd
        exact follows_of_full draw' 0 filled (not_lt.1 hEnd) s
  | succ draws ih =>
      unfold fill
      split
      swap
      · rename_i hEnd
        exact follows_of_full draw' _ filled (not_lt.1 hEnd) s
      rename_i hLt
      rcases hDraw h with ⟨r', hRun, h'⟩
      -- Both keep the same part of the draw, as there is room
      -- for as many values as are still to be collected.
      obtain ⟨taken, hTaken⟩ :
          ∃ taken, (draw' s).1.take (n - index) = taken :=
        ⟨_, rfl⟩
      have hCount : index + taken.length ≤ n := by
        rw [← hTaken, List.length_take]
        omega
      rcases putAll_runs (ε := ε) taken filled hCount with
        ⟨w, hPut, hTake⟩
      have hRest := ih w hCount h'
      rw [hTake, Nat.sub_add_eq] at hRest
      obtain ⟨k, hk⟩ : ∃ k, n - index = k + 1 :=
        ⟨n - index - 1, by omega⟩
      rw [hk] at hTaken hRest ⊢
      refine Follows.ok_bind hRun ?_
      unfold Sampling.collect
      dsimp only
      rw [hTaken]
      refine Follows.ok_bind hPut (hRest.map_right ?_)
      intro w' values hValues
      rw [hValues, List.append_assoc]

/- A vector that is filled from its front is sampled. -/
theorem fill_runs
    {n : Nat}
    {R : ρ → σ → Prop}
    {draw : ρ → Access ε (List β × ρ)}
    {draw' : σ → List β × σ}
    (hDraw :
      ∀ {r s}, R r s →
        ∃ r',
          Runs (draw r) (.ok ((draw' s).1, r'))
            ∧ R r' (draw' s).2)
    (draws : Nat)
    (blank : Vector β n)
    {r : ρ}
    {s : σ}
    (h : R r s) :
    Runs (fill draw draws blank 0 r)
      (Sampling.collectVector draw' draws n s) := by
  have hFill := fill_follows hDraw draws blank (Nat.zero_le n) h
  rw [Nat.sub_zero, ← Sampling.map_toList_collectVector]
    at hFill
  cases hOk :
      (Sampling.collectVector draw' draws n s
        : Outcome ε (Vector β n)) with
  | ok v =>
      rw [hOk] at hFill
      rcases hFill with
        ⟨w, values, hRun, hSame, hValues⟩ | ⟨stop, _, hStop⟩
      · cases hSame
        rw [List.take_zero, List.nil_append] at hValues
        rw [Vector.toList_inj.1 hValues] at hRun
        exact hRun
      · cases hStop
  | error stop =>
      rw [hOk] at hFill
      rcases hFill with ⟨_, _, _, hSame, _⟩ | ⟨_, hRun, hStop⟩
      · cases hSame
      · cases hStop
        exact hRun

------------------------------------------------------------
-- Polynomials
------------------------------------------------------------

variable [BlockSource σ]
variable [ByteSource τ]

/- Draw a candidate from three bytes, and accept it below `q`. -/
def drawResidue
    (r : BlockBuffer σ) :
    Access ε (List Int × BlockBuffer σ) := do
  let (bytes, r) ← readBytes 3 r
  let candidate : Int := Bytes.toNatLE bytes % 8388608
  return (if candidate < Field.q then [candidate] else [], r)

/- A polynomial with uniform coefficients in `[0, q)`. -/
def uniform
    (r : BlockBuffer σ) : Access ε Poly :=
  fill drawResidue Sampling.maxDraws Poly.zero 0 r

/- Draw the two halves of a byte, the lower one first. -/
def drawSmall
    (eta : Nat)
    (r : BlockBuffer σ) :
    Access ε (List Int × BlockBuffer σ) := do
  let (b, r) ← nextByte r
  let halves := [b.toNat % 16, b.toNat / 16]
  return (halves.filterMap (Sampling.smallOfNibble eta), r)

/- A polynomial with uniform coefficients in `[-eta, eta]`. -/
def small
    (eta : Nat)
    (r : BlockBuffer σ) : Access ε Poly :=
  fill (drawSmall eta) Sampling.maxDraws Poly.zero 0 r

/- A polynomial with coefficients in `(-gamma1, gamma1]`. -/
def mask
    (p : ParameterSet)
    (r : BlockBuffer σ) : Access SchemeError Poly := do
  let (bytes, _) ← readBytes p.responsePolyBytes r
  let raw ←
    ofOutcome
      (SchemeError.lift (Packing.unpack p.responseBits bytes))
  ofOutcome (Outcome.mapEntries (Word.sub32 p.gamma1) raw)

/- Uniform polynomials are sampled in bounds. -/
theorem uniform_runs
    {r : BlockBuffer σ}
    {s : τ}
    (h : r.Represents s) :
    Runs (uniform r : Access ε Poly) (Sampling.uniform s) := by
  refine fill_runs ?_ _ _ h
  intro r s h
  rcases readBytes_runs (ε := ε) 3 h with
    ⟨r', hRead, h'⟩
  refine ⟨r', ?_, h'⟩
  unfold drawResidue Sampling.drawResidue
  refine hRead.ok_bind ?_
  dsimp only
  exact runs_pure _

/- Small polynomials are sampled in bounds. -/
theorem small_runs
    (eta : Nat)
    {r : BlockBuffer σ}
    {s : τ}
    (h : r.Represents s) :
    Runs (small eta r : Access ε Poly) (Sampling.small eta s) := by
  refine fill_runs ?_ _ _ h
  intro r s h
  rcases nextByte_follows (ε := ε) h with ⟨r', hNext, h'⟩
  exact ⟨r', hNext.ok_bind (runs_pure _), h'⟩

/- Masks are sampled in bounds. -/
theorem mask_runs
    (p : ParameterSet)
    {r : BlockBuffer σ}
    {s : τ}
    (h : r.Represents s) :
    Runs (mask p r) (Sampling.mask p s) := by
  rcases readBytes_runs (ε := SchemeError)
      p.responsePolyBytes h with
    ⟨r', hRead, _⟩
  unfold mask Sampling.mask
  refine hRead.ok_bind ?_
  refine (runs_ofOutcome _).bind ?_
  intro raw _
  exact runs_ofOutcome _

------------------------------------------------------------
-- Challenges
------------------------------------------------------------

/- The next byte that is not above a limit. -/
def drawPosition
    (limit : Nat) :
    Nat →
      BlockBuffer σ →
      Access ε (UInt8 × BlockBuffer σ)
  | 0, _ => ofOutcome (.error .exhausted)
  | draws + 1, r => do
      let (b, r) ← nextByte r
      if b.toNat ≤ limit then
        return (b, r)
      else
        drawPosition limit draws r

/-
  Fill the last `count` places, of which there are no more
  than the polynomial has.
-/
def place :
    (count : Nat) →
      (signs : Nat) →
      Poly →
      BlockBuffer σ →
      Access ε Poly
  | 0, _, filled, _ => return filled
  | count + 1, signs, filled, r => do
      let here := degree - 1 - count
      assuming (count < degree) (.ok ())
      let (b, r) ← drawPosition here Sampling.maxDraws r
      let coefficient ← entryAt filled b.toNat
      let moved ← putEntry filled here coefficient
      let signed ←
        putEntry moved b.toNat (Sampling.signOf signs)
      place count (signs / 2) signed r

/- Both draw the same byte and skip the same ones. -/
theorem drawPosition_follows
    (limit draws : Nat)
    {r : BlockBuffer σ}
    {s : τ}
    (h : r.Represents s) :
    Follows (fun x y => x.1 = y.1 ∧ x.2.Represents y.2)
      (drawPosition limit draws r
        : Access ε (UInt8 × BlockBuffer σ))
      (Sampling.drawPosition limit draws s) := by
  induction draws generalizing r s with
  | zero => exact Or.inr ⟨_, runs_ofOutcome _, rfl⟩
  | succ draws ih =>
      rcases nextByte_follows (ε := ε) h with
        ⟨r', hNext, h'⟩
      unfold drawPosition Sampling.drawPosition
      refine Follows.ok_bind hNext ?_
      dsimp only
      split
      · exact Follows.of_ok (runs_pure _) ⟨rfl, h'⟩
      · exact ih h'

/- All positions are those of coefficients. -/
theorem place_runs
    {count : Nat}
    (hCount : count ≤ degree)
    (signs : Nat)
    (filled : Poly)
    {r : BlockBuffer σ}
    {s : τ}
    (h : r.Represents s) :
    Runs (place count signs filled r : Access ε Poly)
      (Sampling.place count signs filled s) := by
  induction count generalizing signs filled r s with
  | zero => exact runs_pure _
  | succ count ih =>
      obtain ⟨here, hHere⟩ :
          ∃ here, Fin.ofNat degree (degree - 1 - count) = here :=
        ⟨_, rfl⟩
      have hVal : degree - 1 - count = here.val := by
        rw [← hHere]
        exact (Nat.mod_eq_of_lt (by unfold degree; omega)).symm
      unfold place Sampling.place
      dsimp only
      refine (runs_assuming hCount _).ok_bind ?_
      rw [hHere, hVal]
      refine (drawPosition_follows _ _ h).bind_runs ?_
      rintro ⟨b, r'⟩ ⟨b', s'⟩ ⟨hSame, h'⟩
      dsimp only at hSame
      subst hSame
      refine (runs_entryAt filled b.toNat_lt).ok_bind ?_
      refine (runs_putEntry filled _ here.isLt).ok_bind ?_
      refine (runs_putEntry _ _ b.toNat_lt).ok_bind ?_
      exact ih (Nat.le_of_succ_le hCount) _ _ h'

/- The challenge of a seed. -/
def challenge
    (p : ParameterSet)
    (seed : Bytes) : Access ε Poly := do
  let source := Keccak.extend Keccak.rate256 seed
  let (signs, r) ←
    readBytes 8 (BlockBuffer.ofSource source Keccak.rate256)
  place p.tau (Bytes.toNatLE signs) Poly.zero r

/- A challenge of any parameter set is sampled in bounds. -/
theorem challenge_runs
    (p : ParameterSet)
    (seed : Bytes) :
    Runs (challenge p seed : Access ε Poly)
      (Sampling.challenge p seed) := by
  have hTau : p.tau ≤ degree := by
    cases p <;> decide
  have hStart :=
    BlockBuffer.represents_ofSource
      (Keccak.extend Keccak.rate256 seed).emits
      (by decide : 0 < Keccak.rate256)
  rcases readBytes_runs (ε := ε) 8 hStart with ⟨r, hRead, h⟩
  unfold challenge Sampling.challenge Sampling.challengeOf
  refine hRead.ok_bind ?_
  dsimp only
  exact place_runs hTau _ _ h

------------------------------------------------------------
-- Seeded Samplers
------------------------------------------------------------

/- A reader of the stream of a seed and a nonce. -/
def seededReader
    (kind : StreamKind)
    (seed : Bytes)
    (nonce : UInt16) :
    Access SchemeError (BlockBuffer SeededStream) := do
  let stream ←
    ofOutcome
      (SchemeError.lift (SeededStream.start kind seed nonce))
  return .ofSource stream kind.blockBytes

/- The uniform polynomial of a seed and a nonce. -/
def seededUniform
    (kind : StreamKind)
    (seed : Bytes)
    (nonce : UInt16) : Access SchemeError Poly := do
  let reader ← seededReader kind seed nonce
  uniform reader

/- The small polynomial of a seed and a nonce. -/
def seededSmall
    (eta : Nat)
    (kind : StreamKind)
    (seed : Bytes)
    (nonce : UInt16) : Access SchemeError Poly := do
  let reader ← seededReader kind seed nonce
  small eta reader

/- The mask polynomial of a seed and a nonce. -/
def seededMask
    (p : ParameterSet)
    (kind : StreamKind)
    (seed : Bytes)
    (nonce : UInt16) : Access SchemeError Poly := do
  let reader ← seededReader kind seed nonce
  mask p reader

/- The public matrix of a seed, transformed. -/
def matrix
    (p : ParameterSet)
    (backend : Backend)
    (rho : Seed) :
    Access SchemeError (Matrix p.rows p.columns) :=
  tabulate fun i =>
    tabulate fun j =>
      seededUniform backend.matrixStream rho.toList
        (Sampling.matrixNonce i.val j.val)

/- The secret vectors of a seed. -/
def secrets
    (p : ParameterSet)
    (kind : StreamKind)
    (seed : Bytes) :
    Access SchemeError (Sampling.Secrets p) := do
  let s1 ← tabulate fun i =>
    seededSmall p.eta kind seed (UInt16.ofNat i.val)
  let s2 ← tabulate fun i =>
    seededSmall p.eta kind seed
      (UInt16.ofNat (p.columns + i.val))
  return ⟨s1, s2⟩

/- The mask vector of an attempt. -/
def masks
    (p : ParameterSet)
    (kind : StreamKind)
    (seed : Bytes)
    (kappa : UInt16) : Access SchemeError (PolyVec p.columns) :=
  tabulate fun i =>
    seededMask p kind seed (Sampling.maskNonce p kappa i.val)

/- The buffer holds what the reader of the stream hands out. -/
theorem seededReader_follows
    (kind : StreamKind)
    (seed : Bytes)
    (nonce : UInt16) :
    Follows BlockBuffer.Represents
      (seededReader kind seed nonce)
      (Sampling.seededReader kind seed nonce) := by
  unfold seededReader Sampling.seededReader
  cases SchemeError.lift (SeededStream.start kind seed nonce) with
  | ok stream =>
      exact Follows.of_ok (runs_pure _)
        (BlockBuffer.represents_ofSource stream.emits
          kind.blockBytes_pos)
  | error stop => exact Or.inr ⟨stop, rfl, rfl⟩

/- The buffer is filled from the stream of a seed. -/
theorem seededUniform_runs
    (kind : StreamKind)
    (seed : Bytes)
    (nonce : UInt16) :
    Runs (seededUniform kind seed nonce)
      (Sampling.seededUniform kind seed nonce) :=
  (seededReader_follows kind seed nonce).bind_runs
    fun _ _ h => uniform_runs h

theorem seededSmall_runs
    (eta : Nat)
    (kind : StreamKind)
    (seed : Bytes)
    (nonce : UInt16) :
    Runs (seededSmall eta kind seed nonce)
      (Sampling.seededSmall eta kind seed nonce) :=
  (seededReader_follows kind seed nonce).bind_runs
    fun _ _ h => small_runs eta h

theorem seededMask_runs
    (p : ParameterSet)
    (kind : StreamKind)
    (seed : Bytes)
    (nonce : UInt16) :
    Runs (seededMask p kind seed nonce)
      (Sampling.seededMask p kind seed nonce) :=
  (seededReader_follows kind seed nonce).bind_runs
    fun _ _ h => mask_runs p h

/- The matrix is sampled entry by entry. -/
theorem matrix_runs
    (p : ParameterSet)
    (backend : Backend)
    (rho : Seed) :
    Runs (matrix p backend rho)
      (Sampling.matrix p backend rho) :=
  runs_tabulate fun _ =>
    runs_tabulate fun _ => seededUniform_runs _ _ _

/- The two secret vectors are sampled one after the other. -/
theorem secrets_runs
    (p : ParameterSet)
    (kind : StreamKind)
    (seed : Bytes) :
    Runs (secrets p kind seed)
      (Sampling.secrets p kind seed) := by
  refine (runs_tabulate fun i =>
    seededSmall_runs _ _ _ _).bind ?_
  intro s1 _
  refine (runs_tabulate fun i =>
    seededSmall_runs _ _ _ _).bind ?_
  intro s2 _
  exact runs_pure _

/- The masks of an attempt are sampled one after the other. -/
theorem masks_runs
    (p : ParameterSet)
    (kind : StreamKind)
    (seed : Bytes)
    (kappa : UInt16) :
    Runs (masks p kind seed kappa)
      (Sampling.masks p kind seed kappa) :=
  runs_tabulate fun _ => seededMask_runs _ _ _ _

end Guarded

end LatticeSignature
