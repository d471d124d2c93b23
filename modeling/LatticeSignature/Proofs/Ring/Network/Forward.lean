import LatticeSignature.Proofs.Ring.Network

/-
  The network of the forward transform.  Its layers go from
  one block of all entries down to single entries, and the
  index into the table of roots runs upwards.

  Main declarations:
    * `Network.splitPair`, `Network.splitHalves`
    * `Network.forward`
    * `Network.splitLayer_runs`, `Network.splitLayers_runs`
    * `Network.forward_runs`
-/

------------------------------------------------------------
-- Sums and Differences
------------------------------------------------------------

namespace LatticeSignature

namespace Network

open Outcome Access Entries

variable {ε : Type}
variable {d : Nat}

/- The sum and the difference, with the second word scaled. -/
def splitPair
    (r x y : Int) : Access ε (Int × Int) := do
  let product ← scaled r y
  let difference ← word (x - product)
  let sum ← word (x + product)
  return (sum, difference)

/- Two halves as the forward transform replaces them. -/
def splitHalves
    (r : Int)
    (lo hi : Vector Int (2 ^ d)) :
    Outcome ε (Vector Int (2 ^ d) × Vector Int (2 ^ d)) := do
  let scaled ← mapEntries (Field.montgomeryMul r) hi
  let left ← zipEntries Word.add32 lo scaled
  let right ← zipEntries Word.sub32 lo scaled
  return (left, right)

/- No sum leaves its word, and each pair is that of its halves. -/
theorem pairwise_split
    {bound : Int}
    (hNonneg : 0 ≤ bound)
    (hBound : bound + (Field.q - 1) ≤ 2147483647) :
    Pairwise (ε := ε) d bound (bound + (Field.q - 1))
      splitPair splitHalves := by
  intro r lo hi hr hLo hHi
  have hWide : bound ≤ 2147483647 := by
    unfold Field.q at hBound
    omega
  have hScaled :
      ∀ i : Fin (2 ^ d),
        Runs (scaled r hi[i] : Access ε Int)
          (Field.montgomeryMul r hi[i]) := by
    intro i
    exact scaled_runs
      (Word.within_mul hr ((hHi i).mono hWide)) (by decide)
  refine
    (Entries.montgomeryMul_returns (ε := ε) hr (hHi.mono hWide)
      (by decide)).with_eq.bind ?_
  rintro product ⟨hOk, hProduct, _⟩
  refine (add_returns hLo hProduct hBound).bind ?_
  rintro left ⟨hLeft, hLeftRange, _⟩
  refine (sub_returns hLo hProduct hBound).bind ?_
  rintro right ⟨hRight, hRightRange, _⟩
  refine returns_ok ⟨hLeftRange, hRightRange, fun i => ?_⟩
  have hSum : left[i] = lo[i] + product[i] := congrFun hLeft i
  have hDifference : right[i] = lo[i] - product[i] :=
    congrFun hRight i
  have hLeftWord := (hLeftRange i).mono hBound
  have hRightWord := (hRightRange i).mono hBound
  rw [mapEntries_eq_ok_iff] at hOk
  refine ((hScaled i).congr (hOk i)).ok_bind ?_
  dsimp only
  rw [← hSum, ← hDifference]
  refine (runs_assuming hRightWord _).ok_bind ?_
  refine (runs_assuming hLeftWord _).ok_bind ?_
  exact runs_pure _

------------------------------------------------------------
-- Layers
------------------------------------------------------------

/- The indices of a network that counts upwards. -/
theorem indices_succ_eq
    (index count : Nat) :
    indices Nat.succ index count =
      List.range' (index + 1) count := by
  unfold indices
  rw [List.range'_eq_map_range]
  apply List.map_congr_left
  intro c _
  rw [Nat.succ_iterate]
  omega

/-
  The layers from blocks of `2^depth` entries down to single
  entries, where there are `count` blocks at first.
-/
def splitLayers :
    (depth count : Nat) → State → Access ε State
  | 0, _, s => pure s
  | depth + 1, count, s => do
      let s ← blocks splitPair Nat.succ (2 ^ depth) count 0 s
      splitLayers depth (2 * count) s

/- Transform a polynomial in place. -/
def forward
    (p : Poly) : Access ε State :=
  splitLayers 8 1 ⟨p, 0, []⟩

theorem forward_of_halves
    {depth node : Nat}
    {v : Vector Int (2 ^ (depth + 1))}
    {left right x y : Vector Int (2 ^ depth)}
    (hNode : node < 256)
    (hHalves :
      splitHalves (Field.scaledRoot node) (Halves.lower v)
          (Halves.upper v) =
        (.ok (left, right) : Outcome ε _))
    (hLeft :
      Transform.forward depth (2 * node) left =
        (.ok x : Outcome ε _))
    (hRight :
      Transform.forward depth (2 * node + 1) right =
        (.ok y : Outcome ε _)) :
    Transform.forward (depth + 1) node v =
      (.ok (Halves.join x y) : Outcome ε _) := by
  have hSplit :
      (Transform.forward (depth + 1) node v : Outcome ε _) =
        Transform.root node >>= fun r =>
          splitHalves r (Halves.lower v) (Halves.upper v)
            >>= fun out =>
              Transform.forward depth (2 * node) out.1
                >>= fun left =>
                  Transform.forward depth (2 * node + 1) out.2
                    >>= fun right =>
                      .ok (Halves.join left right) := by
    simp only [Transform.forward, splitHalves, bind_assoc]
    rfl
  rw [hSplit, Transform.root_eq_ok hNode, Outcome.ok_bind,
    hHalves, Outcome.ok_bind, hLeft, Outcome.ok_bind, hRight,
    Outcome.ok_bind]

/- A layer replaces the halves of every block of a polynomial. -/
theorem splitLayer_runs
    {depth count : Nat}
    {bound : Int}
    {v : Poly}
    (reads : List Nat)
    (hCount : count * 2 ^ (depth + 1) = 256)
    (hNonneg : 0 ≤ bound)
    (hBound : bound + (Field.q - 1) ≤ 2147483647)
    (hWithin : ∀ i, Word.Within bound (entry v i)) :
    ∃ u : Poly,
      Runs
          (blocks splitPair Nat.succ (2 ^ depth) count 0
            ⟨v, count - 1, reads⟩)
          (.ok
            (⟨u, 2 * count - 1, reads ++ List.range' count count⟩
              : State) : Outcome ε State)
        ∧ (∀ c < count,
          splitHalves (Field.scaledRoot (count + c))
              (block depth v (2 * c * 2 ^ depth))
              (block depth v ((2 * c + 1) * 2 ^ depth)) =
            (.ok
              (block depth u (2 * c * 2 ^ depth),
                block depth u ((2 * c + 1) * 2 ^ depth))
              : Outcome ε _))
        ∧ ∀ i, Word.Within (bound + (Field.q - 1)) (entry u i) := by
  have hPow : 2 ^ (depth + 1) = 2 * 2 ^ depth := Nat.pow_succ'
  rcases two_mul_le_of_blocks hCount with ⟨hSome, hFew⟩
  have hIndices :
      ∀ c, Nat.succ^[c] (count - 1) = count - 1 + c :=
    fun c => Nat.succ_iterate _ _
  have hNode : ∀ c, count - 1 + (c + 1) = count + c := by
    intro c
    omega
  have hLast : count - 1 + count = 2 * count - 1 := by
    omega
  have hGrows : bound ≤ bound + (Field.q - 1) := by
    unfold Field.q
    omega
  rcases blocks_runs (d := depth) Nat.succ
      (pairwise_split (ε := ε) hNonneg hBound) hGrows count 0
      ⟨v, count - 1, reads⟩ (by rw [← hPow, hCount]) (by
        intro c hc
        rw [hIndices, hNode]
        omega)
      (fun i _ => hWithin i) with
    ⟨u, hBlocks, hHalves, _, hRange⟩
  refine ⟨u, ?_, ?_, fun i => hRange i (Nat.zero_le i)⟩
  · dsimp only at hBlocks
    rw [hIndices, hLast, indices_succ_eq,
      Nat.sub_add_cancel hSome] at hBlocks
    exact hBlocks
  · intro c hc
    have hHere := hHalves c hc
    dsimp only at hHere
    rw [hIndices, hNode, Nat.zero_add, ← hPow,
      (place_halves c depth).1, (place_halves c depth).2]
      at hHere
    exact hHere

/- The blocks of a layer are transformed like their halves. -/
theorem forward_of_layer
    {depth count : Nat}
    {v u w : Poly}
    (hFew : 2 * count ≤ 256)
    (hHalves :
      ∀ c < count,
        splitHalves (Field.scaledRoot (count + c))
            (block depth v (2 * c * 2 ^ depth))
            (block depth v ((2 * c + 1) * 2 ^ depth)) =
          (.ok
            (block depth u (2 * c * 2 ^ depth),
              block depth u ((2 * c + 1) * 2 ^ depth))
            : Outcome ε _))
    (hBlocks :
      ∀ c < 2 * count,
        Transform.forward depth (2 * count + c)
            (block depth u (c * 2 ^ depth)) =
          (.ok (block depth w (c * 2 ^ depth)) : Outcome ε _))
    (c : Nat)
    (hc : c < count) :
    Transform.forward (depth + 1) (count + c)
        (block (depth + 1) v (c * 2 ^ (depth + 1))) =
      (.ok (block (depth + 1) w (c * 2 ^ (depth + 1)))
        : Outcome ε _) := by
  rcases place_halves c depth with ⟨hPlace, hNext⟩
  have hLeft := hBlocks (2 * c) (by omega)
  have hRight := hBlocks (2 * c + 1) (by omega)
  rw [← Nat.mul_add] at hLeft
  rw [← Nat.add_assoc, ← Nat.mul_add] at hRight
  rw [hPlace, ← join_blocks w, hNext]
  refine forward_of_halves (by omega) ?_ hLeft hRight
  rw [lower_block, upper_block, hNext]
  exact hHalves c hc

/-
  The layers that are left transform every block, and read the
  indices that are left.
-/
theorem splitLayers_runs
    (depth count : Nat)
    (bound : Int)
    (v : Poly)
    (reads : List Nat)
    (hCount : count * 2 ^ depth = 256)
    (hNonneg : 0 ≤ bound)
    (hBound : bound + depth * (Field.q - 1) ≤ 2147483647)
    (hWithin : ∀ i, Word.Within bound (entry v i)) :
    ∃ w : Poly,
      Runs (splitLayers depth count ⟨v, count - 1, reads⟩)
          (.ok
            (⟨w, 255, reads ++ List.range' count (256 - count)⟩
              : State) : Outcome ε State)
        ∧ ∀ c < count,
          Transform.forward depth (count + c)
              (block depth v (c * 2 ^ depth)) =
            (.ok (block depth w (c * 2 ^ depth))
              : Outcome ε _) := by
  induction depth generalizing count bound v reads with
  | zero =>
      have hAll : count = 256 := by
        simpa using hCount
      subst hAll
      refine ⟨v, ?_, fun _ _ => rfl⟩
      rw [Nat.sub_self, List.range'_zero, List.append_nil]
      exact runs_pure _
  | succ depth ih =>
      have hHalf : 2 * count * 2 ^ depth = 256 := by
        rw [← (place_halves count depth).1, hCount]
      have hFew := (two_mul_le_of_blocks hCount).2
      have hRest : 0 ≤ (depth : Int) * (Field.q - 1) :=
        mul_nonneg (Int.natCast_nonneg _) (by decide)
      have hLevels :
          bound + (Field.q - 1) + depth * (Field.q - 1) =
            bound + (depth + 1 : Nat) * (Field.q - 1) := by
        push_cast
        ring
      have hMore : 0 ≤ bound + (Field.q - 1) := by
        unfold Field.q
        omega
      rcases splitLayer_runs (ε := ε) reads hCount hNonneg
          (by omega) hWithin with
        ⟨u, hLayer, hHalves, hRange⟩
      rcases ih (2 * count) (bound + (Field.q - 1)) u
          (reads ++ List.range' count count) hHalf hMore
          (by omega) hRange with
        ⟨w, hLayers, hBlocks⟩
      refine ⟨w, ?_, forward_of_layer hFew hHalves hBlocks⟩
      rw [List.append_assoc, indices_append hFew] at hLayers
      exact hLayer.ok_bind hLayers

/-
  The network computes the transform, and reads every word of
  the table but the first one, in the order of the table.
-/
theorem forward_runs
    {p : Poly}
    (h : Within (Field.q - 1) p) :
    ∃ w : Poly,
      Runs (forward p)
          (.ok (⟨w, 255, List.range' 1 255⟩ : State)
            : Outcome ε State)
        ∧ p.transform = (.ok w : Outcome ε Poly) := by
  have hEntries := h.entry (by decide)
  rcases splitLayers_runs (ε := ε) 8 1 (Field.q - 1) p []
      (by decide) (by decide) (by decide) hEntries with
    ⟨w, hLayers, hForward⟩
  refine ⟨w, hLayers, ?_⟩
  have hWhole := hForward 0 (by decide)
  rw [Nat.zero_mul, Nat.add_zero] at hWhole
  rw [block_zero (d := 8) p, block_zero (d := 8) w] at hWhole
  exact hWhole

end Network

end LatticeSignature
