import LatticeSignature.Proofs.Ring.Transform

/-
  Vectors of words by index, and the blocks of neighbouring
  entries in them that a transform works on.

  Main declarations:
    * `Entries.entry`, `Entries.entry_set`
    * `Entries.block`, `Entries.block_congr`
    * `Entries.lower_block`, `Entries.upper_block`
-/

------------------------------------------------------------
-- Entries by Index
------------------------------------------------------------

namespace LatticeSignature

namespace Entries

variable {n d : Nat}

/- The entry at an index, and zero behind the last entry. -/
def entry
    (v : Vector Int n)
    (i : Nat) : Int :=
  v[i]?.getD 0

/- Inside of the vector, the entry at an index is its own. -/
theorem entry_eq
    (v : Vector Int n)
    (i : Fin n) :
    entry v i.val = v[i] := by
  simp [entry]

/- One entry is replaced and all others are kept. -/
theorem entry_set
    (v : Vector Int n)
    {i : Nat}
    (hi : i < n)
    (x : Int)
    (j : Nat) :
    entry (v.set i x hi) j = if j = i then x else entry v j := by
  unfold entry
  rw [Vector.getElem?_set]
  by_cases hSame : i = j
  · rw [if_pos hSame, if_pos hSame.symm]
    rfl
  · rw [if_neg hSame, if_neg (Ne.symm hSame)]

/- Outside of the vector there is nothing but zero. -/
theorem Within.entry
    {bound : Int}
    {v : Vector Int n}
    (h : Within bound v)
    (hNonneg : 0 ≤ bound)
    (i : Nat) :
    Word.Within bound (entry v i) := by
  by_cases hi : i < n
  · have hEntry := entry_eq v ⟨i, hi⟩
    dsimp only at hEntry
    rw [hEntry]
    exact h ⟨i, hi⟩
  · have hZero : Entries.entry v i = 0 := by
      simp [Entries.entry, hi]
    rw [hZero]
    unfold Word.Within
    omega

------------------------------------------------------------
-- Blocks
------------------------------------------------------------

/- The `2^d` entries from a place on. -/
def block
    (d : Nat)
    (v : Vector Int n)
    (place : Nat) : Vector Int (2 ^ d) :=
  Vector.ofFn fun i => entry v (place + i.val)

/- Entries of a block are counted from its place. -/
theorem getElem_block
    (v : Vector Int n)
    (place : Nat)
    (i : Fin (2 ^ d)) :
    (block d v place)[i] = entry v (place + i.val) := by
  simp [block]

/- The lower half of a block begins where the block does. -/
theorem lower_block
    (v : Vector Int n)
    (place : Nat) :
    Halves.lower (block (d + 1) v place) = block d v place := by
  apply Vector.ext
  intro i hi
  simp [Halves.lower, Halves.lowerIndex, block]

/- The upper half begins in the middle of the block. -/
theorem upper_block
    (v : Vector Int n)
    (place : Nat) :
    Halves.upper (block (d + 1) v place) =
      block d v (place + 2 ^ d) := by
  apply Vector.ext
  intro i hi
  simp [Halves.upper, Halves.upperIndex, block, Nat.add_assoc]

/- Two neighbouring blocks are the halves of another one. -/
theorem join_blocks
    (v : Vector Int n)
    (place : Nat) :
    Halves.join (block d v place) (block d v (place + 2 ^ d)) =
      block (d + 1) v place := by
  rw [← lower_block, ← upper_block, Halves.join_lower_upper]

/- A block depends on its entries only. -/
theorem block_congr
    {v w : Vector Int n}
    {place : Nat}
    (h :
      ∀ i, place ≤ i → i < place + 2 ^ d →
        entry v i = entry w i) :
    block d v place = block d w place := by
  apply Vector.ext
  intro i hi
  simp only [block, Vector.getElem_ofFn]
  exact h _ (by omega) (by omega)

/- The block of all entries. -/
theorem block_zero
    (v : Vector Int (2 ^ d)) :
    block d v 0 = v := by
  apply Vector.ext
  intro i hi
  simp [block, entry]

/- A block is as small as all entries from its place on. -/
theorem within_block
    {bound : Int}
    {v : Vector Int n}
    {place : Nat}
    (h : ∀ i, place ≤ i → Word.Within bound (entry v i)) :
    Within bound (block d v place) := by
  intro i
  rw [getElem_block]
  exact h _ (Nat.le_add_right _ _)

/- Every index between the ends of a block belongs to it. -/
theorem Within.of_block
    {bound : Int}
    {v : Vector Int n}
    {place i : Nat}
    (h : Within bound (block d v place))
    (hLower : place ≤ i)
    (hUpper : i < place + 2 ^ d) :
    Word.Within bound (Entries.entry v i) := by
  have hEntry := h ⟨i - place, by omega⟩
  rw [getElem_block] at hEntry
  have hPlace : place + (i - place) = i := by omega
  dsimp only at hEntry
  rw [hPlace] at hEntry
  exact hEntry

end Entries

end LatticeSignature
