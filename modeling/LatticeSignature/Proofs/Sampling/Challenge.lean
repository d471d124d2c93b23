import LatticeSignature.Proofs.Encoding.BitStream
import LatticeSignature.Proofs.ParameterSet
import LatticeSignature.Proofs.Ring.Products
import LatticeSignature.Proofs.Sampling.Shuffle
import LatticeSignature.Sampling.Challenge

/-
  A challenge is what the shuffle makes of the bytes of its
  seed, so it has a fixed number of signs.  It is sampled
  unless too many bytes in a row are no positions.

  Main declarations:
    * `Sampling.drawPosition_ends`
    * `Sampling.place_shuffles`
    * `Sampling.challenge_shuffles`
    * `Sampling.IsChallenge`, `Sampling.challenge_yields`
    * `Sampling.Starves`, `Sampling.starves_of_challenge`
    * `Sampling.challengeOf_congr`
    * `Sampling.challenge_sampled_in_ball`
-/

------------------------------------------------------------
-- Draws
------------------------------------------------------------

namespace LatticeSignature

/- The bits of a number are those of its bytes. -/
theorem Bytes.testBit_toNatLE
    (s : Bytes)
    (n : Nat) :
    (toNatLE s).testBit n = s.bit n := by
  induction s generalizing n with
  | nil => simp [toNatLE, bit]
  | cons b rest ih =>
      have hValue :
          toNatLE (b :: rest) =
            2 ^ 8 * toNatLE rest + b.toNat := by
        rw [toNatLE]
        omega
      rw [hValue, Nat.testBit_two_pow_mul_add _ b.toNat_lt]
      unfold bit at *
      split
      · rename_i hFirst
        rw [Nat.div_eq_of_lt hFirst, Nat.mod_eq_of_lt hFirst]
        rfl
      · rename_i hLater
        have hDiv : n / 8 = (n - 8) / 8 + 1 := by omega
        have hMod : n % 8 = (n - 8) % 8 := by omega
        rw [ih, hDiv, hMod, List.getElem?_cons_succ]

/- The bytes that are left are later ones. -/
theorem ByteSource.byte_after
    {σ : Type}
    [ByteSource σ]
    (skip i : Nat)
    (s : σ) :
    byte (after skip s) i = byte s (skip + i) := by
  unfold byte
  rw [after_add]

namespace Sampling

open Outcome Negacyclic

variable {ε σ : Type}
variable [ByteSource σ]

/-
  A position is the first byte that is not above the limit.
  None is found when all bytes that are drawn are above it.
-/
theorem drawPosition_ends
    (limit draws : Nat)
    (s : σ) :
    Ends
      (fun stop =>
        stop = .exhausted
          ∧ ∀ i < draws, limit < (ByteSource.byte s i).toNat)
      (drawPosition limit draws s : Outcome ε (UInt8 × σ))
      fun drawn =>
        ∃ i,
          drawn = (ByteSource.byte s i, ByteSource.after (i + 1) s)
            ∧ (ByteSource.byte s i).toNat ≤ limit
            ∧ ∀ j < i, limit < (ByteSource.byte s j).toNat := by
  induction draws generalizing s with
  | zero => exact Or.inr ⟨_, rfl, rfl, nofun⟩
  | succ draws ih =>
      unfold drawPosition
      dsimp only
      by_cases hFirst : (ByteSource.next s).1.toNat ≤ limit
      · rw [if_pos hFirst]
        exact Or.inl ⟨_, rfl, 0, rfl, hFirst, nofun⟩
      · rw [if_neg hFirst]
        -- The first byte joins those that are drawn after it.
        have hJoin :
            ∀ {bound : Nat},
              (∀ i < bound,
                limit <
                  (ByteSource.byte (ByteSource.next s).2 i).toNat) →
              ∀ i < bound + 1,
                limit < (ByteSource.byte s i).toNat := by
          intro bound hLater i hi
          cases i with
          | zero => exact not_le.1 hFirst
          | succ i => exact hLater i (Nat.lt_of_succ_lt_succ hi)
        refine ((ih (ByteSource.next s).2).weaken ?_).mono ?_
        · intro stop hStop
          exact ⟨hStop.1, hJoin hStop.2⟩
        · intro drawn hDrawn
          rcases hDrawn with ⟨i, hSame, hLow, hEarlier⟩
          exact ⟨i + 1, hSame, hLow, hJoin hEarlier⟩

------------------------------------------------------------
-- Rounds
------------------------------------------------------------

/- The sign of a round is told by its bit. -/
theorem signOf_div
    (signs n : Nat) :
    signOf (signs / 2 ^ n) = (-1) ^ (signs.testBit n).toNat := by
  rw [Nat.testBit_eq_decide_div_mod_eq, signOf]
  rcases Nat.mod_two_eq_zero_or_one (signs / 2 ^ n) with h | h <;>
    rw [h] <;> rfl

/- One coefficient is updated. -/
theorem toFun_set
    (c : Poly)
    (i : Fin degree)
    (x : Int) :
    Entries.toFun (c.set i.val x i.isLt) =
      Function.update (Entries.toFun c) i x := by
  funext j
  rw [Function.update_apply]
  simp only [Entries.toFun, getElem_index, Vector.getElem_set,
    Fin.ext_iff, eq_comm]

/- Two writes are an exchange. -/
theorem toFun_exchange
    (filled : Poly)
    (place position : Fin degree)
    (sign : Int) :
    Entries.toFun
        ((filled.set place.val filled[position] place.isLt).set
          position.val sign position.isLt) =
      exchange (Entries.toFun filled) place position sign := by
  rw [toFun_set, toFun_set]
  rfl

/-
  The rounds that are left continue a shuffle.  The source
  stands at its next byte, and the sign bits of the rounds
  that are done have been dropped.
-/
theorem place_shuffles
    {tau rounds count next : Nat}
    {bytes : Nat → UInt8}
    {signs : Nat}
    {filled : Poly}
    {s : σ}
    (hRounds : rounds + count = tau)
    (hTau : tau ≤ degree)
    (hBits : ∀ n < tau, signs.testBit n = signBit bytes n)
    (hBytes : ∀ j, ByteSource.byte s j = bytes (next + j))
    (h : Shuffled tau bytes rounds next (Entries.toFun filled)) :
    Yields
      (place count (signs / 2 ^ rounds) filled s
        : Outcome ε Poly)
      fun c => SampledInBall tau bytes (Entries.toFun c) := by
  induction count generalizing rounds next filled s with
  | zero =>
      obtain rfl : rounds = tau := hRounds
      exact Or.inl ⟨filled, rfl, next, h⟩
  | succ count ih =>
      obtain ⟨here, hHere⟩ :
          ∃ here, Fin.ofNat degree (degree - 1 - count) = here :=
        ⟨_, rfl⟩
      have hPlace : here.val = degree - tau + rounds := by
        rw [← hHere, Fin.val_ofNat, Nat.mod_eq_of_lt] <;>
          unfold degree at * <;> omega
      unfold place
      dsimp only
      rw [hHere]
      refine Ends.bind
        ((drawPosition_ends here.val maxDraws s).weaken
          fun _ hStop => hStop.1) ?_
      rintro _ ⟨i, rfl, hLow, hRefused⟩
      rw [hBytes i] at hLow ⊢
      have hNext : IsNext bytes here.val next (next + i) := by
        refine ⟨Nat.le_add_right next i, hLow, ?_⟩
        intro j hStart hLt
        have hByte := hRefused (j - next) (by omega)
        rwa [hBytes, Nat.add_sub_cancel' hStart] at hByte
      have hRest :
          ∀ j,
            ByteSource.byte (ByteSource.after (i + 1) s) j =
              bytes (next + i + 1 + j) := by
        intro j
        rw [ByteSource.byte_after, hBytes]
        congr 1
        omega
      have hRound := Shuffled.round h hPlace hNext
      rw [← hBits rounds (by omega), ← signOf_div,
        ← toFun_exchange] at hRound
      have hSigns :
          signs / 2 ^ rounds / 2 = signs / 2 ^ (rounds + 1) := by
        rw [Nat.div_div_eq_div_mul, Nat.pow_succ]
      have hLater := ih (by omega) hRest hRound
      rw [← hSigns] at hLater
      exact hLater

/- The first eight bytes hold the signs. -/
theorem challengeOf_shuffles
    {tau : Nat}
    (hTau : tau ≤ 64)
    (s : σ) :
    Yields (challengeOf tau s : Outcome ε Poly) fun c =>
      SampledInBall tau (ByteSource.byte s) (Entries.toFun c) := by
  have hBits :
      ∀ n < tau,
        (Bytes.toNatLE (ByteSource.read 8 s).1).testBit n =
          signBit (ByteSource.byte s) n := by
    intro n hn
    have hByte : n / 8 < 8 := by omega
    rw [Bytes.testBit_toNatLE, ByteSource.read_fst, Bytes.bit,
      List.getElem?_map, List.getElem?_range hByte]
    rfl
  have hZero : Entries.toFun Poly.zero = 0 := by
    funext i
    simp [Entries.toFun, Poly.zero]
  have hStart :
      Shuffled tau (ByteSource.byte s) 0 8
        (Entries.toFun Poly.zero) := by
    rw [hZero]
    exact .start
  have hPlace :=
    place_shuffles (ε := ε) (s := ByteSource.after 8 s)
      (Nat.zero_add tau) (by unfold degree; omega) hBits
      (fun j => ByteSource.byte_after 8 j s) hStart
  rw [Nat.pow_zero, Nat.div_one, ← ByteSource.read_snd]
    at hPlace
  exact hPlace

/- The bytes are those of the output for the seed. -/
theorem challenge_shuffles
    (p : ParameterSet)
    (seed : Bytes) :
    Yields (challenge p seed : Outcome ε Poly) fun c =>
      SampledInBall p.tau
        (ByteSource.byte (Keccak.extend Keccak.rate256 seed))
        (Entries.toFun c) := by
  have hTau := p.tau_le
  have hSame :=
    funext (BlockReader.byte_ofSource
      (Keccak.extend Keccak.rate256 seed) Keccak.rate256)
  have hShuffles :=
    challengeOf_shuffles (ε := ε) (show p.tau ≤ 64 by omega)
      (BlockReader.ofSource
        (Keccak.extend Keccak.rate256 seed) Keccak.rate256)
  rw [hSame] at hShuffles
  exact hShuffles

------------------------------------------------------------
-- Weight of Challenges
------------------------------------------------------------

/- A polynomial of small coefficients with limited total. -/
structure IsChallenge
    (weight : Int)
    (c : Poly) : Prop where
  within : Entries.Within 1 c
  total : totalMagnitude (Entries.toFun c) ≤ weight

/- Signs are small, and so is their total. -/
theorem IsSigned.isChallenge
    {weight : Nat}
    {r : Poly}
    (h : IsSigned weight (Entries.toFun r)) :
    IsChallenge weight r := by
  refine ⟨fun i => ?_, h.totalMagnitude_eq.le⟩
  have hUnit : r[i] = 0 ∨ r[i] = 1 ∨ r[i] = -1 := h.unit i
  unfold Word.Within
  omega

/- All challenges have the weight of the parameter set. -/
theorem challenge_yields
    (p : ParameterSet)
    (seed : Bytes) :
    Yields (challenge p seed : Outcome ε Poly)
      (IsChallenge p.tau) :=
  (challenge_shuffles p seed).mono
    fun _ h => h.isSigned.isChallenge

------------------------------------------------------------
-- Exhaustion
------------------------------------------------------------

/-
  Somewhere in a source, as many bytes follow each other as a
  draw may take, and none of them is a position.
-/
def Starves
    (tau : Nat)
    (s : σ) : Prop :=
  ∃ start,
    ∀ i < maxDraws,
      degree - tau < (ByteSource.byte s (start + i)).toNat

/- What is left of a source is a part of it. -/
theorem Starves.of_after
    {tau skip : Nat}
    {s : σ}
    (h : Starves tau (ByteSource.after skip s)) :
    Starves tau s := by
  rcases h with ⟨start, hRefused⟩
  refine ⟨skip + start, ?_⟩
  intro i hi
  have hByte := hRefused i hi
  rw [ByteSource.byte_after, ← Nat.add_assoc] at hByte
  exact hByte

/- A shuffle stops where no byte is a position. -/
theorem place_starves
    {count tau : Nat}
    (hCount : count ≤ tau)
    (signs : Nat)
    (filled : Poly)
    (s : σ) :
    Ends (fun stop => stop = .exhausted ∧ Starves tau s)
      (place count signs filled s : Outcome ε Poly)
      fun _ => True := by
  induction count generalizing signs filled s with
  | zero => exact Or.inl ⟨filled, rfl, trivial⟩
  | succ count ih =>
      have hLimit :
          degree - tau ≤
            (Fin.ofNat degree (degree - 1 - count)).val := by
        rw [Fin.val_ofNat, Nat.mod_eq_of_lt] <;>
          unfold degree <;> omega
      refine Ends.bind
        ((drawPosition_ends _ maxDraws s).weaken ?_) ?_
      · intro stop hStop
        refine ⟨hStop.1, 0, ?_⟩
        intro i hi
        rw [Nat.zero_add]
        exact hLimit.trans_lt (hStop.2 i hi)
      · intro drawn hDrawn
        rcases hDrawn with ⟨i, rfl, _⟩
        refine (ih (Nat.le_of_succ_le hCount) _ _ _).weaken ?_
        intro stop hStop
        exact ⟨hStop.1, hStop.2.of_after⟩

/- The sign bytes starve nothing. -/
theorem challengeOf_starves
    (tau : Nat)
    (s : σ) :
    Ends (fun stop => stop = .exhausted ∧ Starves tau s)
      (challengeOf tau s : Outcome ε Poly)
      fun _ => True := by
  refine (place_starves (Nat.le_refl tau) _ Poly.zero
    (ByteSource.read 8 s).2).weaken ?_
  intro stop hStop
  rw [ByteSource.read_snd] at hStop
  exact ⟨hStop.1, hStop.2.of_after⟩

/- A challenge is sampled unless its seed starves the sampler. -/
theorem starves_of_challenge
    {p : ParameterSet}
    {seed : Bytes}
    (h :
      challenge p seed = (.error .exhausted : Outcome ε Poly)) :
    Starves p.tau (Keccak.extend Keccak.rate256 seed) := by
  have hEnds :=
    challengeOf_starves (ε := ε) p.tau
      (BlockReader.ofSource
        (Keccak.extend Keccak.rate256 seed) Keccak.rate256)
  rcases hEnds with ⟨c, hOk, _⟩ | ⟨stop, _, _, start, hRefused⟩
  · rw [challenge, hOk] at h
    cases h
  · refine ⟨start, ?_⟩
    intro i hi
    rw [← BlockReader.byte_ofSource _ Keccak.rate256]
    exact hRefused i hi

------------------------------------------------------------
-- Cuts of a Source
------------------------------------------------------------

variable {τ : Type}
variable [ByteSource τ]

/- Sources of the same bytes are drawn from alike. -/
theorem drawPosition_congr
    (limit draws : Nat)
    {s : σ}
    {t : τ}
    (h : ∀ i, ByteSource.byte s i = ByteSource.byte t i) :
    (∃ i,
      (drawPosition limit draws s : Outcome ε (UInt8 × σ)) =
          .ok (ByteSource.byte s i, ByteSource.after (i + 1) s)
        ∧ (drawPosition limit draws t : Outcome ε (UInt8 × τ)) =
          .ok (ByteSource.byte t i, ByteSource.after (i + 1) t))
      ∨ (drawPosition limit draws s : Outcome ε (UInt8 × σ)) =
          .error .exhausted
        ∧ (drawPosition limit draws t : Outcome ε (UInt8 × τ)) =
          .error .exhausted := by
  induction draws generalizing s t with
  | zero => exact Or.inr ⟨rfl, rfl⟩
  | succ draws ih =>
      have hFirst :
          (ByteSource.next s).1 = (ByteSource.next t).1 := h 0
      have hRest :
          ∀ i,
            ByteSource.byte (ByteSource.next s).2 i =
              ByteSource.byte (ByteSource.next t).2 i :=
        fun i => h (i + 1)
      unfold drawPosition
      dsimp only
      rw [← hFirst]
      by_cases hLow : (ByteSource.next s).1.toNat ≤ limit
      · rw [if_pos hLow, if_pos hLow]
        refine Or.inl ⟨0, rfl, ?_⟩
        rw [hFirst]
        rfl
      · rw [if_neg hLow, if_neg hLow]
        rcases ih hRest with ⟨i, hs, ht⟩ | hSpent
        · exact Or.inl ⟨i + 1, hs, ht⟩
        · exact Or.inr hSpent

/- The rounds draw the same positions. -/
theorem place_congr
    (count signs : Nat)
    (filled : Poly)
    {s : σ}
    {t : τ}
    (h : ∀ i, ByteSource.byte s i = ByteSource.byte t i) :
    (place count signs filled s : Outcome ε Poly) =
      place count signs filled t := by
  induction count generalizing signs filled s t with
  | zero => rfl
  | succ count ih =>
      unfold place
      dsimp only
      rcases drawPosition_congr (ε := ε)
          (Fin.ofNat degree (degree - 1 - count)).val maxDraws h
        with ⟨i, hs, ht⟩ | ⟨hs, ht⟩
      · rw [hs, ht, ok_bind, ok_bind]
        dsimp only
        rw [h i]
        apply ih
        intro j
        rw [ByteSource.byte_after, ByteSource.byte_after, h]
      · rw [hs, ht]
        rfl

/- A challenge depends on the bytes of its source only. -/
theorem challengeOf_congr
    (tau : Nat)
    {s : σ}
    {t : τ}
    (h : ∀ i, ByteSource.byte s i = ByteSource.byte t i) :
    (challengeOf tau s : Outcome ε Poly) = challengeOf tau t := by
  have hSigns :
      (ByteSource.read 8 s).1 = (ByteSource.read 8 t).1 := by
    rw [ByteSource.read_fst, ByteSource.read_fst, funext h]
  unfold challengeOf
  dsimp only
  rw [hSigns, ByteSource.read_snd, ByteSource.read_snd]
  apply place_congr
  intro i
  rw [ByteSource.byte_after, ByteSource.byte_after, h]

/-
  The challenge of a seed is the one polynomial that the
  shuffle makes of the endless output for the seed, and has as
  many coefficients `1` and `-1` as the parameter set says.  It
  does not depend on the size of the blocks in which the output
  is fetched.  There is none only if a draw spends its budget
  on bytes that are no positions.
-/
theorem challenge_sampled_in_ball
    (p : ParameterSet)
    (seed : Bytes) :
    let output := Keccak.extend Keccak.rate256 seed
    (∀ count,
      Keccak.shake256 seed count =
        (List.range count).map (ByteSource.byte output))
      ∧ Ends
        (fun stop => stop = .exhausted ∧ Starves p.tau output)
        (challenge p seed : Outcome ε Poly)
        (fun c =>
          IsSigned p.tau (Entries.toFun c)
            ∧ ∀ c',
              SampledInBall p.tau (ByteSource.byte output) c'
                ↔ c' = Entries.toFun c)
      ∧ ∀ blockBytes,
        (challengeOf p.tau
            (BlockReader.ofSource output blockBytes)
            : Outcome ε Poly) =
          challenge p seed := by
  intro output
  refine ⟨fun count => ByteSource.read_fst count output, ?_, ?_⟩
  · refine (((challenge_shuffles p seed).with_stop).weaken
      ?_).mono ?_
    · rintro stop ⟨hStop, rfl⟩
      exact ⟨rfl, starves_of_challenge hStop⟩
    · intro c hSampled
      refine ⟨hSampled.isSigned, fun c' => ⟨?_, ?_⟩⟩
      · exact fun hOther => hOther.unique hSampled
      · rintro rfl
        exact hSampled
  · intro blockBytes
    apply challengeOf_congr
    intro i
    rw [BlockReader.byte_ofSource, BlockReader.byte_ofSource]

end Sampling

end LatticeSignature
