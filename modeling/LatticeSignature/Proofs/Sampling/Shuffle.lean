import LatticeSignature.Proofs.Ring.Negacyclic

/-
  The shuffle that fills a ball: signs are the bits of the
  first eight bytes of an endless string, and each round
  exchanges the coefficient of the next place with that at a
  position, which is the next byte that is not above the
  place.

  Main declarations:
    * `Sampling.IsNext`
    * `Sampling.signBit`
    * `Sampling.exchange`
    * `Sampling.Shuffled`
    * `Sampling.Shuffled.unique`
    * `Sampling.IsSigned`
    * `Sampling.Shuffled.isSigned`
    * `Sampling.SampledInBall`
-/

------------------------------------------------------------
-- Shuffle
------------------------------------------------------------

namespace LatticeSignature

namespace Sampling

open Negacyclic

/-
  The first index from a start on at which a string has a byte
  that is not above a limit.
-/
structure IsNext
    (bytes : Nat → UInt8)
    (limit start index : Nat) : Prop where
  start_le : start ≤ index
  byte_le : (bytes index).toNat ≤ limit
  refused :
    ∀ j, start ≤ j → j < index → limit < (bytes j).toNat

/- There is one next byte that is not too large. -/
theorem IsNext.unique
    {bytes : Nat → UInt8}
    {limit start index index' : Nat}
    (h : IsNext bytes limit start index)
    (h' : IsNext bytes limit start index') :
    index = index' := by
  rcases Nat.lt_trichotomy index index' with hLt | hEq | hLt
  · exact absurd h.byte_le
      (not_le.2 (h'.refused index h.start_le hLt))
  · exact hEq
  · exact absurd h'.byte_le
      (not_le.2 (h.refused index' h'.start_le hLt))

/- A bit of a string, lowest bit of the first byte first. -/
def signBit
    (bytes : Nat → UInt8)
    (n : Nat) : Bool :=
  (bytes (n / 8)).toNat.testBit (n % 8)

/-
  Move the coefficient at a position to a place, and put a
  sign at the position.
-/
def exchange
    (c : Element Int)
    (place position : Fin degree)
    (sign : Int) : Element Int :=
  Function.update (Function.update c place (c position))
    position sign

/-
  What a number of rounds make of zero, and the index of the
  byte after the last one that they take.
-/
inductive Shuffled
    (tau : Nat)
    (bytes : Nat → UInt8) :
    (rounds next : Nat) → Element Int → Prop where
  | start : Shuffled tau bytes 0 8 0
  | round
      {rounds next index : Nat}
      {c : Element Int}
      {place : Fin degree}
      (before : Shuffled tau bytes rounds next c)
      (hPlace : place.val = degree - tau + rounds)
      (hNext : IsNext bytes place.val next index) :
      Shuffled tau bytes (rounds + 1) (index + 1)
        (exchange c place (bytes index).toFin
          ((-1) ^ (signBit bytes rounds).toNat))

/- The bytes decide what a number of rounds make. -/
theorem Shuffled.unique
    {tau rounds next next' : Nat}
    {bytes : Nat → UInt8}
    {c c' : Element Int}
    (h : Shuffled tau bytes rounds next c)
    (h' : Shuffled tau bytes rounds next' c') :
    next = next' ∧ c = c' := by
  induction h generalizing next' c' with
  | start =>
      cases h'
      exact ⟨rfl, rfl⟩
  | round _ hPlace hNext ih =>
      cases h' with
      | round before' hPlace' hNext' =>
          rcases ih before' with ⟨rfl, rfl⟩
          cases Fin.ext (hPlace.trans hPlace'.symm)
          cases hNext.unique hNext'
          exact ⟨rfl, rfl⟩

/- The polynomial that the whole shuffle makes. -/
def SampledInBall
    (tau : Nat)
    (bytes : Nat → UInt8)
    (c : Element Int) : Prop :=
  ∃ next, Shuffled tau bytes tau next c

/- The bytes leave no choice. -/
theorem SampledInBall.unique
    {tau : Nat}
    {bytes : Nat → UInt8}
    {c c' : Element Int}
    (h : SampledInBall tau bytes c)
    (h' : SampledInBall tau bytes c') :
    c = c' := by
  rcases h with ⟨_, h⟩
  rcases h' with ⟨_, h'⟩
  exact (h.unique h').2

------------------------------------------------------------
-- Weight
------------------------------------------------------------

/- The places of nonzero coefficients. -/
def support
    (c : Element Int) : Finset (Fin degree) :=
  Finset.univ.filter fun i => c i ≠ 0

/- The support of an element. -/
@[simp] theorem mem_support
    {c : Element Int}
    {i : Fin degree} :
    i ∈ support c ↔ c i ≠ 0 := by
  simp [support]

/-
  All coefficients are `0`, `1` or `-1`, and a given number of
  them is not `0`.
-/
structure IsSigned
    (weight : Nat)
    (c : Element Int) : Prop where
  unit : ∀ i, c i = 0 ∨ c i = 1 ∨ c i = -1
  card : (support c).card = weight

/- Zero has no signs. -/
theorem isSigned_zero :
    IsSigned 0 0 := by
  refine ⟨fun _ => Or.inl rfl, ?_⟩
  rw [Finset.card_eq_zero, Finset.eq_empty_iff_forall_notMem]
  simp

/- Two coefficients change and all others stay. -/
theorem exchange_apply
    (c : Element Int)
    (place position : Fin degree)
    (sign : Int)
    (i : Fin degree) :
    exchange c place position sign i =
      if i = position then sign
      else if i = place then c position
      else c i := by
  unfold exchange
  rw [Function.update_apply, Function.update_apply]

/-
  An exchange with an empty place makes one coefficient more:
  the place is filled from a position that is taken, and else
  the position itself is new.
-/
theorem support_exchange
    {c : Element Int}
    {place : Fin degree}
    {sign : Int}
    (position : Fin degree)
    (hEmpty : c place = 0)
    (hSign : sign ≠ 0) :
    ∃ i, c i = 0
      ∧ support (exchange c place position sign) =
        insert i (support c) := by
  by_cases hTaken : c position = 0
  · refine ⟨position, hTaken, ?_⟩
    ext i
    rw [mem_support, exchange_apply, Finset.mem_insert,
      mem_support]
    split_ifs with hPosition hPlace
    · simp [hPosition, hSign]
    · subst hPlace
      simp [hPosition, hTaken, hEmpty]
    · simp [hPosition]
  · refine ⟨place, hEmpty, ?_⟩
    ext i
    rw [mem_support, exchange_apply, Finset.mem_insert,
      mem_support]
    split_ifs with hPosition hPlace
    · simp [hPosition, hSign, hTaken]
    · simp [hPlace, hTaken]
    · simp [hPlace]

/- One round of the shuffle adds one to the weight. -/
theorem IsSigned.exchange
    {weight : Nat}
    {c : Element Int}
    {place position : Fin degree}
    {sign : Int}
    (h : IsSigned weight c)
    (hEmpty : c place = 0)
    (hSign : sign = 1 ∨ sign = -1) :
    IsSigned (weight + 1)
      (exchange c place position sign) := by
  have hNonzero : sign ≠ 0 := by omega
  rcases support_exchange position hEmpty hNonzero with
    ⟨i, hNew, hSupport⟩
  constructor
  · intro j
    rw [exchange_apply]
    split_ifs
    · exact Or.inr hSign
    · exact h.unit position
    · exact h.unit j
  · rw [hSupport, Finset.card_insert_of_notMem (by simpa),
      h.card]

/- A sign is one of two. -/
theorem sign_eq
    (bit : Bool) :
    ((-1) ^ bit.toNat : Int) = 1
      ∨ ((-1) ^ bit.toNat : Int) = -1 := by
  cases bit
  · exact Or.inl rfl
  · exact Or.inr rfl

/-
  Every round adds one to the weight, and the places of later
  rounds are empty.
-/
theorem Shuffled.isSigned
    {tau rounds next : Nat}
    {bytes : Nat → UInt8}
    {c : Element Int}
    (h : Shuffled tau bytes rounds next c) :
    IsSigned rounds c
      ∧ ∀ i : Fin degree,
        degree - tau + rounds ≤ i.val → c i = 0 := by
  induction h with
  | start => exact ⟨isSigned_zero, fun _ _ => rfl⟩
  | @round rounds _ index c place _ hPlace hNext ih =>
      rcases ih with ⟨hSigned, hLater⟩
      refine ⟨hSigned.exchange (hLater place hPlace.ge)
        (sign_eq _), ?_⟩
      intro i hi
      have hPosition : (bytes index).toFin.val ≤ place.val :=
        hNext.byte_le
      rw [exchange_apply, if_neg, if_neg]
      · exact hLater i (by omega)
      · rintro rfl
        omega
      · rintro rfl
        omega

/- Every round adds one sign. -/
theorem SampledInBall.isSigned
    {tau : Nat}
    {bytes : Nat → UInt8}
    {c : Element Int}
    (h : SampledInBall tau bytes c) :
    IsSigned tau c := by
  rcases h with ⟨_, h⟩
  exact h.isSigned.1

/- The magnitudes of the coefficients add up to the weight. -/
theorem IsSigned.totalMagnitude_eq
    {weight : Nat}
    {c : Element Int}
    (h : IsSigned weight c) :
    totalMagnitude c = weight := by
  have hAbs :
      ∀ i, |c i| = if c i ≠ 0 then 1 else 0 := by
    intro i
    rcases h.unit i with hi | hi | hi <;> rw [hi] <;> rfl
  rw [totalMagnitude, Finset.sum_congr rfl fun i _ => hAbs i,
    Finset.sum_boole, ← h.card]
  rfl

end Sampling

end LatticeSignature
