import LatticeSignature.Aes.Cipher
import LatticeSignature.Proofs.Aes.Field
import Mathlib.Tactic.IntervalCases

/-
  The cipher permutes blocks under every key: each step of a
  round can be undone.

  Main declarations:
    * `Aes.Column.mix_mix`
    * `Aes.addKey_injective`
    * `Aes.substituteAndShift_injective`
    * `Aes.middleRound_injective`
    * `Aes.encrypt_injective`
-/

------------------------------------------------------------
-- Columns
------------------------------------------------------------

namespace LatticeSignature

namespace Aes

/- Sums of bytes may be put in another order. -/
theorem xor_left_comm
    (a b c : UInt8) :
    a ^^^ (b ^^^ c) = b ^^^ (a ^^^ c) := by
  ac_rfl

/- A byte that is added twice is gone. -/
theorem xor_cancel_left
    (a b : UInt8) :
    a ^^^ (a ^^^ b) = b := by
  rw [← UInt8.xor_assoc, UInt8.xor_self, UInt8.zero_xor]

namespace Column

/- A column is its four bytes. -/
theorem eq_of_bytes
    {v w : Column}
    (h₀ : v.b₀ = w.b₀)
    (h₁ : v.b₁ = w.b₁)
    (h₂ : v.b₂ = w.b₂)
    (h₃ : v.b₃ = w.b₃) :
    v = w := by
  cases v
  cases w
  cases h₀
  cases h₁
  cases h₂
  cases h₃
  rfl

/- Adding a column twice adds nothing. -/
theorem add_add
    (v w : Column) :
    (v.add w).add w = v := by
  simp only [add, UInt8.xor_assoc, UInt8.xor_self, UInt8.xor_zero]

/- Bytes of a column are substituted one by one. -/
theorem substitute_injective
    {v w : Column}
    (h : v.substitute = w.substitute) :
    v = w := by
  rcases v with ⟨v₀, v₁, v₂, v₃⟩
  rcases w with ⟨w₀, w₁, w₂, w₃⟩
  simp only [substitute, mk.injEq] at h ⊢
  rcases h with ⟨h₀, h₁, h₂, h₃⟩
  exact
    ⟨Aes.substitute_injective h₀, Aes.substitute_injective h₁,
      Aes.substitute_injective h₂, Aes.substitute_injective h₃⟩

/- Multiply by the square of the fixed matrix. -/
theorem mix_mix
    (v : Column) :
    v.mix.mix =
      ⟨v.b₀ ^^^ double (double (v.b₀ ^^^ v.b₂)),
        v.b₁ ^^^ double (double (v.b₁ ^^^ v.b₃)),
        v.b₂ ^^^ double (double (v.b₂ ^^^ v.b₀)),
        v.b₃ ^^^ double (double (v.b₃ ^^^ v.b₁))⟩ := by
  simp only [mix, double_xor, UInt8.xor_assoc, UInt8.xor_comm,
    xor_left_comm, xor_cancel_left, UInt8.xor_self,
    UInt8.zero_xor]

/- The square of this square is one. -/
theorem mix_order
    (v : Column) :
    v.mix.mix.mix.mix = v := by
  rw [mix_mix, mix_mix]
  simp only [double_xor, UInt8.xor_comm, xor_left_comm,
    UInt8.xor_self, UInt8.xor_zero]

/- A map of finite order can be undone. -/
theorem mix_injective
    {v w : Column}
    (h : v.mix = w.mix) :
    v = w := by
  rw [← mix_order v, h, mix_order]

end Column

------------------------------------------------------------
-- Rounds
------------------------------------------------------------

/- A round key that is added twice is gone. -/
theorem addKey_addKey
    (roundKey s : State) :
    addKey roundKey (addKey roundKey s) = s := by
  apply Vector.ext
  intro c hc
  simp [addKey, Column.add_add]

/- No two states become the same under a round key. -/
theorem addKey_injective
    {roundKey s s' : State}
    (h : addKey roundKey s = addKey roundKey s') :
    s = s' := by
  rw [← addKey_addKey roundKey s, h, addKey_addKey]

/- All four columns are mixed, each on its own. -/
theorem map_mix_injective
    {s s' : State}
    (h : s.map Column.mix = s'.map Column.mix) :
    s = s' := by
  apply Vector.ext
  intro c hc
  have hColumn := congrArg (fun t : State => t[c]) h
  simp only [Vector.getElem_map] at hColumn
  exact Column.mix_injective hColumn

/- The column that is substituted has a byte of each column. -/
theorem getElem_substituteAndShift
    (s : State)
    (c : Fin 4) :
    (substituteAndShift s)[c] =
      Column.substitute
        ⟨s[Fin.ofNat 4 c.val].b₀, s[Fin.ofNat 4 (c.val + 1)].b₁,
          s[Fin.ofNat 4 (c.val + 2)].b₂,
          s[Fin.ofNat 4 (c.val + 3)].b₃⟩ := by
  simp [substituteAndShift]

/- Shifted rows put every byte in one place only. -/
theorem substituteAndShift_injective
    {s s' : State}
    (h : substituteAndShift s = substituteAndShift s') :
    s = s' := by
  have hColumns :
      ∀ c : Fin 4,
        s[Fin.ofNat 4 c.val].b₀ = s'[Fin.ofNat 4 c.val].b₀
          ∧ s[Fin.ofNat 4 (c.val + 1)].b₁ =
            s'[Fin.ofNat 4 (c.val + 1)].b₁
          ∧ s[Fin.ofNat 4 (c.val + 2)].b₂ =
            s'[Fin.ofNat 4 (c.val + 2)].b₂
          ∧ s[Fin.ofNat 4 (c.val + 3)].b₃ =
            s'[Fin.ofNat 4 (c.val + 3)].b₃ := by
    intro c
    have hSame := getElem_substituteAndShift s c
    rw [h, getElem_substituteAndShift] at hSame
    have hBytes := Column.substitute_injective hSame.symm
    injection hBytes with h₀ h₁ h₂ h₃
    exact ⟨h₀, h₁, h₂, h₃⟩
  -- The bytes of a column stand in four columns of the result.
  rcases hColumns 0 with ⟨h₀₀, h₁₁, h₂₂, h₃₃⟩
  rcases hColumns 1 with ⟨h₁₀, h₂₁, h₃₂, h₀₃⟩
  rcases hColumns 2 with ⟨h₂₀, h₃₁, h₀₂, h₁₃⟩
  rcases hColumns 3 with ⟨h₃₀, h₀₁, h₁₂, h₂₃⟩
  apply Vector.ext
  intro c hc
  interval_cases c
  · exact Column.eq_of_bytes h₀₀ h₀₁ h₀₂ h₀₃
  · exact Column.eq_of_bytes h₁₀ h₁₁ h₁₂ h₁₃
  · exact Column.eq_of_bytes h₂₀ h₂₁ h₂₂ h₂₃
  · exact Column.eq_of_bytes h₃₀ h₃₁ h₃₂ h₃₃

/- A round in the middle can be undone. -/
theorem middleRound_injective
    {roundKey s s' : State}
    (h : middleRound s roundKey = middleRound s' roundKey) :
    s = s' :=
  substituteAndShift_injective
    (map_mix_injective (addKey_injective h))

/- Any number of rounds can be undone. -/
theorem foldl_middleRound_injective
    (roundKeys : List State)
    {s s' : State}
    (h :
      roundKeys.foldl middleRound s =
        roundKeys.foldl middleRound s') :
    s = s' := by
  induction roundKeys generalizing s s' with
  | nil => exact h
  | cons roundKey rest ih => exact middleRound_injective (ih h)

------------------------------------------------------------
-- Blocks
------------------------------------------------------------

/- A block is found again in its state. -/
theorem toBlock_ofBlock
    (block : Block) :
    (State.ofBlock block).toBlock = block := by
  apply Vector.ext
  intro i hi
  interval_cases i <;> rfl

/- A state is found again in its block. -/
theorem ofBlock_toBlock
    (s : State) :
    State.ofBlock s.toBlock = s := by
  apply Vector.ext
  intro c hc
  interval_cases c <;> rfl

/- No two blocks are encrypted to the same block. -/
theorem encrypt_injective
    (schedule : KeySchedule)
    {block block' : Block}
    (h : encrypt schedule block = encrypt schedule block') :
    block = block' := by
  have hLast := congrArg State.ofBlock h
  unfold encrypt at hLast
  dsimp only at hLast
  rw [ofBlock_toBlock, ofBlock_toBlock] at hLast
  have hMiddle := substituteAndShift_injective (addKey_injective hLast)
  have hFirst :=
    addKey_injective (foldl_middleRound_injective _ hMiddle)
  rw [← toBlock_ofBlock block, hFirst, toBlock_ofBlock]

end Aes

end LatticeSignature
