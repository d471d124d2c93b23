import LatticeSignature.Proofs.Ring.Network

/-
  The network of the inverse transform.  Its layers go from
  single entries up to one block of all entries, and the index
  into the table of roots runs downwards.

  Main declarations:
    * `Network.mergePair`, `Network.mergeHalves`
    * `Network.backward`
    * `Network.mergeLayer_runs`, `Network.mergeLayers_runs`
    * `Network.backward_runs`
-/

------------------------------------------------------------
-- Sums and Scaled Differences
------------------------------------------------------------

namespace LatticeSignature

namespace Network

open Outcome Access Entries

variable {ε : Type}
variable {d : Nat}

/- The sum, and the scaled difference. -/
def mergePair
    (r x y : Int) : Access ε (Int × Int) := do
  let sum ← word (x + y)
  let difference ← word (x - y)
  let product ← scaled (-r) difference
  return (sum, product)

/- Two halves as the inverse transform replaces them. -/
def mergeHalves
    (r : Int)
    (left right : Vector Int (2 ^ d)) :
    Outcome ε (Vector Int (2 ^ d) × Vector Int (2 ^ d)) := do
  let lo ← zipEntries Word.add32 left right
  let difference ← zipEntries Word.sub32 left right
  let hi ← mapEntries (Field.montgomeryMul (-r)) difference
  return (lo, hi)

/- No sum leaves its word, and each pair is that of its halves. -/
theorem pairwise_merge
    {bound : Int}
    (hLarge : Field.q - 1 ≤ bound)
    (hBound : bound + bound ≤ 2147483647) :
    Pairwise (ε := ε) d bound (bound + bound)
      mergePair mergeHalves := by
  intro r left right hr hLeft hRight
  have hNegative : Word.Within 4190208 (-r) := by
    unfold Word.Within at *
    omega
  refine (add_returns hLeft hRight hBound).bind ?_
  rintro lo ⟨hLo, hLoRange, _⟩
  refine (sub_returns hLeft hRight hBound).bind ?_
  rintro difference ⟨hDifference, hDifferenceRange, _⟩
  have hWide := hDifferenceRange.mono hBound
  refine
    (Entries.montgomeryMul_returns (ε := ε) hNegative hWide
      (by decide)).with_eq.bind ?_
  rintro hi ⟨hOk, hHi, _⟩
  refine
    returns_ok ⟨hLoRange, hHi.mono ?_, fun i => ?_⟩
  · unfold Field.q at *
    omega
  have hSum : lo[i] = left[i] + right[i] := congrFun hLo i
  have hRest : difference[i] = left[i] - right[i] :=
    congrFun hDifference i
  have hScaled :
      Runs (scaled (-r) difference[i] : Access ε Int)
        (Field.montgomeryMul (-r) difference[i]) :=
    scaled_runs (Word.within_mul hNegative (hWide i))
      (by decide)
  rw [mapEntries_eq_ok_iff] at hOk
  unfold mergePair
  rw [← hSum, ← hRest]
  refine (runs_assuming ((hLoRange i).mono hBound) _).ok_bind ?_
  refine (runs_assuming (hWide i) _).ok_bind ?_
  refine (hScaled.congr (hOk i)).ok_bind ?_
  exact runs_pure _

------------------------------------------------------------
-- Layers
------------------------------------------------------------

/- The indices of a network that counts downwards. -/
theorem indices_pred_eq
    {index count : Nat}
    (hLe : count ≤ index) :
    indices Nat.pred index count =
      (List.range' (index - count) count).reverse := by
  unfold indices
  rw [List.reverse_range']
  apply List.map_congr_left
  intro c _
  rw [Nat.pred_iterate]
  omega

/-
  The layers from single entries up to blocks of `2^depth`
  entries.
-/
def mergeLayers :
    Nat → State → Access ε State
  | 0, s => pure s
  | depth + 1, s => do
      let s ← mergeLayers depth s
      blocks mergePair Nat.pred (2 ^ depth)
        (degree / (2 * 2 ^ depth)) 0 s

/- Undo the transform of a polynomial in place. -/
def backward
    (p : Poly) : Access ε State := do
  let s ← mergeLayers 8 ⟨p, 256, []⟩
  let values ←
    Access.tabulate fun i : Fin degree =>
      scaled Field.inverseScale s.values[i]
  return { s with values := values }

theorem backward_of_halves
    {depth node : Nat}
    {v : Vector Int (2 ^ (depth + 1))}
    {left right lo hi : Vector Int (2 ^ depth)}
    (hNode : node < 256)
    (hLeft :
      Transform.backward depth (2 * node + 1)
          (Halves.lower v) =
        (.ok left : Outcome ε _))
    (hRight :
      Transform.backward depth (2 * node) (Halves.upper v) =
        (.ok right : Outcome ε _))
    (hHalves :
      mergeHalves (Field.scaledRoot node) left right =
        (.ok (lo, hi) : Outcome ε _)) :
    Transform.backward (depth + 1) node v =
      (.ok (Halves.join lo hi) : Outcome ε _) := by
  have hMerge :
      (Transform.backward (depth + 1) node v : Outcome ε _) =
        Transform.backward depth (2 * node + 1) (Halves.lower v)
          >>= fun left =>
            Transform.backward depth (2 * node) (Halves.upper v)
              >>= fun right =>
                Transform.root node >>= fun r =>
                  mergeHalves r left right >>= fun out =>
                    .ok (Halves.join out.1 out.2) := by
    simp only [Transform.backward, mergeHalves, bind_assoc]
    rfl
  rw [hMerge, hLeft, Outcome.ok_bind, hRight, Outcome.ok_bind,
    Transform.root_eq_ok hNode, Outcome.ok_bind, hHalves,
    Outcome.ok_bind]

/- A layer replaces the halves of every block of a polynomial. -/
theorem mergeLayer_runs
    {depth count : Nat}
    {bound : Int}
    {u : Poly}
    (reads : List Nat)
    (hCount : count * 2 ^ (depth + 1) = 256)
    (hLarge : Field.q - 1 ≤ bound)
    (hBound : bound + bound ≤ 2147483647)
    (hWithin : ∀ i, Word.Within bound (entry u i)) :
    ∃ w : Poly,
      Runs
          (blocks mergePair Nat.pred (2 ^ depth) count 0
            ⟨u, 2 * count, reads⟩)
          (.ok
            (⟨w, count,
              reads ++ (List.range' count count).reverse⟩
              : State) : Outcome ε State)
        ∧ (∀ c < count,
          mergeHalves (Field.scaledRoot (2 * count - 1 - c))
              (block depth u (2 * c * 2 ^ depth))
              (block depth u ((2 * c + 1) * 2 ^ depth)) =
            (.ok
              (block depth w (2 * c * 2 ^ depth),
                block depth w ((2 * c + 1) * 2 ^ depth))
              : Outcome ε _))
        ∧ ∀ i, Word.Within (bound + bound) (entry w i) := by
  have hPow : 2 ^ (depth + 1) = 2 * 2 ^ depth := Nat.pow_succ'
  have hFew := (two_mul_le_of_blocks hCount).2
  have hIndices : ∀ c, Nat.pred^[c] (2 * count) = 2 * count - c :=
    fun c => Nat.pred_iterate _ _
  have hNode : ∀ c, 2 * count - (c + 1) = 2 * count - 1 - c := by
    intro c
    omega
  have hLast : 2 * count - count = count := by
    omega
  have hGrows : bound ≤ bound + bound := by
    unfold Field.q at hLarge
    omega
  rcases blocks_runs (d := depth) Nat.pred
      (pairwise_merge (ε := ε) hLarge hBound) hGrows count 0
      ⟨u, 2 * count, reads⟩ (by rw [← hPow, hCount]) (by
        intro c hc
        rw [hIndices]
        omega)
      (fun i _ => hWithin i) with
    ⟨w, hBlocks, hHalves, _, hRange⟩
  refine ⟨w, ?_, ?_, fun i => hRange i (Nat.zero_le i)⟩
  · dsimp only at hBlocks
    rw [hIndices, indices_pred_eq (by omega), hLast] at hBlocks
    exact hBlocks
  · intro c hc
    have hHere := hHalves c hc
    dsimp only at hHere
    rw [hIndices, hNode, Nat.zero_add, ← hPow,
      (place_halves c depth).1, (place_halves c depth).2]
      at hHere
    exact hHere

/- The blocks of a layer are made of those of the one before. -/
theorem backward_of_layer
    {depth count : Nat}
    {p u w : Poly}
    (hFew : 2 * count ≤ 256)
    (hBlocks :
      ∀ c < 2 * count,
        Transform.backward depth (2 * (2 * count) - 1 - c)
            (block depth p (c * 2 ^ depth)) =
          (.ok (block depth u (c * 2 ^ depth)) : Outcome ε _))
    (hHalves :
      ∀ c < count,
        mergeHalves (Field.scaledRoot (2 * count - 1 - c))
            (block depth u (2 * c * 2 ^ depth))
            (block depth u ((2 * c + 1) * 2 ^ depth)) =
          (.ok
            (block depth w (2 * c * 2 ^ depth),
              block depth w ((2 * c + 1) * 2 ^ depth))
            : Outcome ε _))
    (c : Nat)
    (hc : c < count) :
    Transform.backward (depth + 1) (2 * count - 1 - c)
        (block (depth + 1) p (c * 2 ^ (depth + 1))) =
      (.ok (block (depth + 1) w (c * 2 ^ (depth + 1)))
        : Outcome ε _) := by
  rcases place_halves c depth with ⟨hPlace, hNext⟩
  have hLeft := hBlocks (2 * c) (by omega)
  have hRight := hBlocks (2 * c + 1) (by omega)
  have hLeftNode :
      2 * (2 * count) - 1 - 2 * c =
        2 * (2 * count - 1 - c) + 1 := by
    omega
  have hRightNode :
      2 * (2 * count) - 1 - (2 * c + 1) =
        2 * (2 * count - 1 - c) := by
    omega
  rw [hLeftNode] at hLeft
  rw [hRightNode] at hRight
  rw [hPlace, ← join_blocks w, hNext]
  refine backward_of_halves (by omega) ?_ ?_ (hHalves c hc)
  · rw [lower_block]
    exact hLeft
  · rw [upper_block, hNext]
    exact hRight

/- Magnitudes double in a layer, and remain those of words. -/
theorem bound_doubles
    {depth count : Nat}
    (hCount : count * 2 ^ (depth + 1) = 256) :
    Field.q - 1 ≤ 2 ^ depth * (Field.q - 1)
      ∧ 2 ^ depth * (Field.q - 1) + 2 ^ depth * (Field.q - 1) =
        2 ^ (depth + 1) * (Field.q - 1)
      ∧ 2 ^ (depth + 1) * (Field.q - 1) ≤ 2147483647 := by
  have hSome := (two_mul_le_of_blocks hCount).1
  have hPow : (2 : Int) ^ (depth + 1) ≤ 256 := by
    have hLe := Nat.le_mul_of_pos_left (2 ^ (depth + 1)) hSome
    rw [hCount] at hLe
    exact_mod_cast hLe
  have hPos : (1 : Int) ≤ 2 ^ depth := by
    exact_mod_cast Nat.one_le_two_pow
  unfold Field.q
  refine ⟨?_, ?_, ?_⟩
  · omega
  · ring
  · omega

/-
  The layers undo the transform of every block, and magnitudes
  double in each of them.
-/
theorem mergeLayers_runs
    {p : Poly}
    (h : Within (Field.q - 1) p)
    (depth count : Nat)
    (hCount : count * 2 ^ depth = 256) :
    ∃ w : Poly,
      Runs (mergeLayers depth ⟨p, 256, []⟩)
          (.ok
            (⟨w, count, (List.range' count (256 - count)).reverse⟩
              : State) : Outcome ε State)
        ∧ (∀ c < count,
          Transform.backward depth (2 * count - 1 - c)
              (block depth p (c * 2 ^ depth)) =
            (.ok (block depth w (c * 2 ^ depth))
              : Outcome ε _))
        ∧ ∀ i,
          Word.Within (2 ^ depth * (Field.q - 1)) (entry w i) := by
  induction depth generalizing count with
  | zero =>
      have hAll : count = 256 := by
        simpa using hCount
      subst hAll
      refine ⟨p, runs_pure _, fun _ _ => rfl, ?_⟩
      rw [pow_zero, one_mul]
      exact h.entry (by decide)
  | succ depth ih =>
      have hHalf : 2 * count * 2 ^ depth = 256 := by
        rw [← (place_halves count depth).1, hCount]
      have hFew := (two_mul_le_of_blocks hCount).2
      rcases bound_doubles hCount with ⟨hLarge, hTwice, hWord⟩
      have hBlockCount :
          degree / (2 * 2 ^ depth) = count := by
        rw [← Nat.pow_succ']
        apply Nat.div_eq_of_eq_mul_left (Nat.two_pow_pos _)
        exact hCount.symm
      rcases ih (2 * count) hHalf with
        ⟨u, hLayers, hBlocks, hRange⟩
      rcases mergeLayer_runs (ε := ε)
          (List.range' (2 * count) (256 - 2 * count)).reverse
          hCount hLarge (hTwice.trans_le hWord) hRange with
        ⟨w, hLayer, hHalves, hRange'⟩
      refine ⟨w, ?_, backward_of_layer hFew hBlocks hHalves, ?_⟩
      · rw [← List.reverse_append, indices_append hFew] at hLayer
        refine hLayers.ok_bind ?_
        rw [hBlockCount]
        exact hLayer
      · rw [← hTwice]
        exact hRange'

theorem backward_of_layers
    {w v p : Poly}
    {index : Nat}
    {reads : List Nat}
    (hLayers :
      Runs (mergeLayers 8 ⟨w, 256, []⟩)
        (.ok (⟨v, index, reads⟩ : State) : Outcome ε State))
    (hRange :
      ∀ i, Word.Within (2 ^ 8 * (Field.q - 1)) (entry v i))
    (hScale :
      mapEntries (Field.montgomeryMul Field.inverseScale) v =
        (.ok p : Outcome ε Poly)) :
    Runs (backward w)
      (.ok (⟨p, index, reads⟩ : State) : Outcome ε State) := by
  have hScaleWord : Word.Within 41978 Field.inverseScale := by
    decide
  refine hLayers.ok_bind ?_
  refine
    Runs.ok_bind ((runs_tabulate fun i => ?_).congr hScale)
      (runs_pure _)
  have hEntry := hRange i.val
  rw [entry_eq] at hEntry
  exact scaled_runs (Word.within_mul hScaleWord hEntry)
    (by decide)

/-
  The network computes the inverse transform, and reads every
  word of the table but the first one, from the end of the
  table.
-/
theorem backward_runs
    {w : Poly}
    (h : Within (Field.q - 1) w) :
    ∃ p : Poly,
      Runs (backward w)
          (.ok (⟨p, 1, (List.range' 1 255).reverse⟩ : State)
            : Outcome ε State)
        ∧ w.inverseTransform = (.ok p : Outcome ε Poly) := by
  rcases mergeLayers_runs (ε := ε) h 8 1 (by decide) with
    ⟨v, hLayers, hBlocks, hRange⟩
  have hWhole := hBlocks 0 (by decide)
  rw [Nat.zero_mul] at hWhole
  rw [block_zero (d := 8) w, block_zero (d := 8) v] at hWhole
  rcases Poly.inverseTransform_returns (ε := ε) h with
    ⟨p, hOk, _⟩
  have hScale :
      mapEntries (Field.montgomeryMul Field.inverseScale) v =
        (.ok p : Outcome ε Poly) := by
    rw [← hOk, Poly.inverseTransform]
    exact congrArg
      (· >>= mapEntries (Field.montgomeryMul Field.inverseScale))
      hWhole.symm
  exact ⟨p, backward_of_layers hLayers hRange hScale, hOk⟩

end Network

end LatticeSignature
