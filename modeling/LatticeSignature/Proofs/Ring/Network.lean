import LatticeSignature.Proofs.Access
import LatticeSignature.Proofs.Field.RootTable
import LatticeSignature.Proofs.Ring.Blocks

/-
  The transforms as networks of butterflies.  A network works
  in place: it replaces two entries at a time, by index, layer
  after layer, and reads the words of the root table at a
  running index.  Whatever it computes on the way has to fit
  into its word.

  Main declarations:
    * `Network.scaled`, `Network.scaled_runs`
    * `Network.Pairwise`
    * `Network.butterfly`, `Network.butterfly_runs`
    * `Network.row`, `Network.row_runs`
    * `Network.blocks`, `Network.blocks_runs`
-/

------------------------------------------------------------
-- Words
------------------------------------------------------------

namespace LatticeSignature

namespace Network

open Outcome Access Entries

variable {ε : Type}
variable {d : Nat}

/- A word below `2^31` in magnitude. -/
def word
    (x : Int) : Access ε Int :=
  assuming (Word.Within 2147483647 x) (.ok x)

/- A long word. -/
def longWord
    (x : Int) : Access ε Int :=
  assuming (Word.Fits64 x) (.ok x)

/-
  The product of two words, divided by the Montgomery factor.
  The quotient is a word as it stands.
-/
def scaled
    (r x : Int) : Access ε Int := do
  let product ← longWord (r * x)
  let t :=
    Word.wrap32 (Word.wrap32 product * Field.inverseOfModulus)
  let multiple ← longWord (t * Field.q)
  let rest ← longWord (product - multiple)
  let quotient := rest / 4294967296
  assuming (Word.Fits32 quotient) (.ok quotient)

theorem scaled_runs
    {r x bound : Int}
    (h : Word.Within bound (r * x))
    (hBound : bound < 17996808470921216) :
    Runs (scaled r x : Access ε Int)
      (Field.montgomeryMul r x) := by
  have hFirst : Word.Fits64 (r * x) := by
    unfold Word.Within at h
    unfold Word.Fits64
    omega
  have hWrap :=
    Word.wrap32_fits
      (Word.wrap32 (r * x) * Field.inverseOfModulus)
  unfold scaled Field.montgomeryMul Field.montgomeryReduce
  unfold Word.mul64 Word.sub64
  rw [Word.check64_eq_ok hFirst, Outcome.ok_bind]
  refine (runs_assuming hFirst _).ok_bind ?_
  dsimp only
  -- From here on only the range of the wrapped factor matters.
  generalize
    Word.wrap32
      (Word.wrap32 (r * x) * Field.inverseOfModulus) = t at *
  have hMultiple : Word.Fits64 (t * Field.q) := by
    unfold Word.Fits32 at hWrap
    unfold Word.Fits64 Field.q
    omega
  have hRest : Word.Fits64 (r * x - t * Field.q) := by
    unfold Word.Within at h
    unfold Word.Fits32 at hWrap
    unfold Word.Fits64 Field.q
    omega
  have hQuotient :
      Word.Fits32 ((r * x - t * Field.q) / 4294967296) := by
    unfold Word.Within at h
    unfold Word.Fits32 Field.q at *
    omega
  rw [Word.check64_eq_ok hMultiple, Outcome.ok_bind,
    Word.check64_eq_ok hRest, Outcome.ok_bind,
    Word.wrap32_of_fits _ hQuotient]
  refine (runs_assuming hMultiple _).ok_bind ?_
  refine (runs_assuming hRest _).ok_bind ?_
  exact runs_assuming hQuotient _

------------------------------------------------------------
-- Halves
------------------------------------------------------------

/-
  Halves within a bound are replaced by halves within another
  one, and each pair of entries is replaced alike.
-/
def Pairwise
    (d : Nat)
    (bound bound' : Int)
    (pair : Int → Int → Int → Access ε (Int × Int))
    (halves :
      Int → Vector Int (2 ^ d) → Vector Int (2 ^ d) →
        Outcome ε (Vector Int (2 ^ d) × Vector Int (2 ^ d))) :
    Prop :=
  ∀ (r : Int) (lo hi : Vector Int (2 ^ d)),
    Word.Within 4190208 r →
      Within bound lo →
      Within bound hi →
      Returns (halves r lo hi) fun out =>
        Within bound' out.1
          ∧ Within bound' out.2
          ∧ ∀ i : Fin (2 ^ d),
            Runs (pair r lo[i] hi[i])
              (.ok (out.1[i], out.2[i]))

------------------------------------------------------------
-- Rows of Pairs
------------------------------------------------------------

/- Replace the entries at a place and at a distance from it. -/
def butterfly
    (pair : Int → Int → Access ε (Int × Int))
    (distance place : Nat)
    (v : Poly) : Access ε Poly := do
  let x ← entryAt v place
  let y ← entryAt v (place + distance)
  let (x, y) ← pair x y
  let v ← putEntry v place x
  putEntry v (place + distance) y

/- Replace the pairs at `count` places, one after the other. -/
def row
    (pair : Int → Int → Access ε (Int × Int))
    (distance : Nat) :
    (count place : Nat) → Poly → Access ε Poly
  | 0, _, v => pure v
  | count + 1, place, v => do
      let v ← butterfly pair distance place v
      row pair distance count (place + 1) v

theorem runs_entry
    {i : Nat}
    (v : Poly)
    (hi : i < degree) :
    Runs (entryAt v i : Access ε Int) (.ok (entry v i)) := by
  have hEntry : v[i]? = some (entry v i) := by
    simp [entry, hi]
  exact runs_expect hEntry

/- A butterfly replaces two entries and keeps all others. -/
theorem butterfly_runs
    {pair : Int → Int → Access ε (Int × Int)}
    {distance place : Nat}
    {v : Poly}
    {x y : Int}
    (hRoom : place + distance < degree)
    (hPair :
      Runs (pair (entry v place) (entry v (place + distance)))
        (.ok (x, y))) :
    ∃ w : Poly,
      Runs (butterfly pair distance place v) (.ok w)
        ∧ ∀ i,
          entry w i =
            if i = place + distance then
              y
            else if i = place then
              x
            else
              entry v i := by
  have hPlace : place < degree := by omega
  refine ⟨(v.set place x hPlace).set (place + distance) y hRoom,
    ?_, ?_⟩
  · refine (runs_entry v hPlace).ok_bind ?_
    refine (runs_entry v hRoom).ok_bind ?_
    refine hPair.ok_bind ?_
    refine (runs_putEntry v x hPlace).ok_bind ?_
    exact runs_putEntry _ y hRoom
  · intro i
    rw [entry_set, entry_set]

/-
  The pairs of a row do not meet, so each of them is replaced
  as it was before.
-/
theorem row_runs
    {pair : Int → Int → Access ε (Int × Int)}
    {x y : Nat → Int}
    {distance : Nat}
    (count place : Nat)
    (v : Poly)
    (hCount : count ≤ distance)
    (hRoom : place + distance + count ≤ degree)
    (hPair :
      ∀ i, place ≤ i → i < place + count →
        Runs (pair (entry v i) (entry v (i + distance)))
          (.ok (x i, y i))) :
    ∃ w : Poly,
      Runs (row pair distance count place v) (.ok w)
        ∧ ∀ i,
          entry w i =
            if place ≤ i ∧ i < place + count then
              x i
            else if place + distance ≤ i
                ∧ i < place + distance + count then
              y (i - distance)
            else
              entry v i := by
  induction count generalizing place v with
  | zero =>
      refine ⟨v, runs_pure v, fun i => ?_⟩
      rw [if_neg (by omega), if_neg (by omega)]
  | succ count ih =>
      have hFirst := hPair place (le_refl place) (by omega)
      rcases butterfly_runs (by omega) hFirst with
        ⟨u, hButterfly, hu⟩
      have hRest :
          ∀ i, place + 1 ≤ i → i < place + 1 + count →
            Runs (pair (entry u i) (entry u (i + distance)))
              (.ok (x i, y i)) := by
        intro i hLower hUpper
        have hHere : entry u i = entry v i := by
          rw [hu, if_neg (by omega), if_neg (by omega)]
        have hThere :
            entry u (i + distance) = entry v (i + distance) := by
          rw [hu, if_neg (by omega), if_neg (by omega)]
        rw [hHere, hThere]
        exact hPair i (by omega) (by omega)
      rcases ih (place + 1) u (by omega) (by omega) hRest with
        ⟨w, hRow, hw⟩
      refine ⟨w, hButterfly.ok_bind hRow, fun i => ?_⟩
      rw [hw, hu]
      -- The rest of the row leaves the first pair alone.
      by_cases hPlace : i = place
      · subst hPlace
        rw [if_neg (by omega), if_neg (by omega),
          if_neg (by omega), if_pos rfl, if_pos (by omega)]
      by_cases hOpposite : i = place + distance
      · subst hOpposite
        rw [if_neg (by omega), if_neg (by omega), if_pos rfl,
          if_neg (by omega), if_pos (by omega),
          Nat.add_sub_cancel]
      rw [if_neg hOpposite, if_neg hPlace]
      have hSame :
          (place + 1 ≤ i ∧ i < place + 1 + count)
            ↔ (place ≤ i ∧ i < place + (count + 1)) := by
        omega
      have hSame' :
          (place + 1 + distance ≤ i
              ∧ i < place + 1 + distance + count)
            ↔ (place + distance ≤ i
              ∧ i < place + distance + (count + 1)) := by
        omega
      rw [if_congr hSame rfl (if_congr hSame' rfl rfl)]

/- A row that fills a block replaces its two halves. -/
theorem row_halves_runs
    {pair : Int → Int → Access ε (Int × Int)}
    {place : Nat}
    {v : Poly}
    {left right : Vector Int (2 ^ d)}
    (hRoom : place + 2 * 2 ^ d ≤ degree)
    (hPair :
      ∀ i : Fin (2 ^ d),
        Runs
          (pair (block d v place)[i]
            (block d v (place + 2 ^ d))[i])
          (.ok (left[i], right[i]))) :
    ∃ w : Poly,
      Runs (row pair (2 ^ d) (2 ^ d) place v) (.ok w)
        ∧ block d w place = left
        ∧ block d w (place + 2 ^ d) = right
        ∧ ∀ i, i < place ∨ place + 2 * 2 ^ d ≤ i →
          entry w i = entry v i := by
  have hPlaces :
      ∀ i, place ≤ i → i < place + 2 ^ d →
        Runs (pair (entry v i) (entry v (i + 2 ^ d)))
          (.ok
            (entry left (i - place), entry right (i - place))) := by
    intro i hLower hUpper
    have hi := hPair ⟨i - place, by omega⟩
    rw [getElem_block, getElem_block, ← entry_eq, ← entry_eq]
      at hi
    have hHere : place + (i - place) = i := by omega
    have hThere : place + 2 ^ d + (i - place) = i + 2 ^ d := by
      omega
    dsimp only at hi
    rw [hHere, hThere] at hi
    exact hi
  rcases row_runs (x := fun i => entry left (i - place))
      (y := fun i => entry right (i - place)) (2 ^ d) place v
      (le_refl _) (by omega) hPlaces with
    ⟨w, hRow, hw⟩
  refine ⟨w, hRow, ?_, ?_, ?_⟩
  · apply Vector.ext
    intro i hi
    have hEntry := getElem_block w place ⟨i, hi⟩
    have hLeft := entry_eq left ⟨i, hi⟩
    dsimp only at hEntry
    rw [hw, if_pos (by omega), Nat.add_sub_cancel_left] at hEntry
    exact hEntry.trans hLeft
  · apply Vector.ext
    intro i hi
    have hEntry := getElem_block w (place + 2 ^ d) ⟨i, hi⟩
    have hRight := entry_eq right ⟨i, hi⟩
    have hOffset : place + 2 ^ d + i - 2 ^ d - place = i := by
      omega
    dsimp only at hEntry
    rw [hw, if_neg (by omega), if_pos (by omega), hOffset]
      at hEntry
    exact hEntry.trans hRight
  · intro i hOutside
    rw [hw, if_neg (by omega), if_neg (by omega)]

/- The halves of a block are replaced, and nothing else. -/
theorem row_runs_of_pairwise
    {bound bound' : Int}
    {pair : Int → Int → Int → Access ε (Int × Int)}
    {halves :
      Int → Vector Int (2 ^ d) → Vector Int (2 ^ d) →
        Outcome ε (Vector Int (2 ^ d) × Vector Int (2 ^ d))}
    {r : Int}
    {place : Nat}
    {v : Poly}
    (hPairwise : Pairwise d bound bound' pair halves)
    (hr : Word.Within 4190208 r)
    (hRoom : place + 2 * 2 ^ d ≤ degree)
    (hWithin :
      ∀ i, place ≤ i → Word.Within bound (entry v i)) :
    ∃ w : Poly,
      Runs (row (pair r) (2 ^ d) (2 ^ d) place v) (.ok w)
        ∧ halves r (block d v place)
            (block d v (place + 2 ^ d)) =
          .ok (block d w place, block d w (place + 2 ^ d))
        ∧ (∀ i, i < place ∨ place + 2 * 2 ^ d ≤ i →
          entry w i = entry v i)
        ∧ ∀ i, place ≤ i → i < place + 2 * 2 ^ d →
          Word.Within bound' (entry w i) := by
  rcases hPairwise r (block d v place)
      (block d v (place + 2 ^ d)) hr (within_block hWithin)
      (within_block fun i hi => hWithin i (by omega)) with
    ⟨⟨left, right⟩, hHalves, hLeft, hRight, hPair⟩
  rcases row_halves_runs (v := v) hRoom hPair with
    ⟨w, hRow, hLower, hUpper, hFrame⟩
  rw [← hLower] at hLeft
  rw [← hUpper] at hRight
  refine ⟨w, hRow, ?_, hFrame, fun i hPlace hEnd => ?_⟩
  · rw [hHalves, hLower, hUpper]
  · by_cases hNear : i < place + 2 ^ d
    · exact hLeft.of_block hPlace hNear
    · exact hRight.of_block (by omega) (by omega)

------------------------------------------------------------
-- Layers
------------------------------------------------------------

/-
  The polynomial that is worked on, the last index into the
  table of roots, and all indices so far, in order.
-/
structure State where
  values : Poly
  index : Nat
  reads : List Nat

/- Read the word of the table at an index. -/
def readRoot
    (index : Nat)
    (s : State) : Access ε (Int × State) := do
  let r ← expect Field.rootWords[index]?
  return (r,
    { s with
      index := index
      reads := s.reads ++ [index] })

/-
  Replace `count` blocks from a place on, each with the word
  at the next index.
-/
def blocks
    (pair : Int → Int → Int → Access ε (Int × Int))
    (next : Nat → Nat)
    (distance : Nat) :
    (count place : Nat) → State → Access ε State
  | 0, _, s => pure s
  | count + 1, place, s => do
      let (r, s) ← readRoot (next s.index) s
      let values ← row (pair r) distance distance place s.values
      blocks pair next distance count (place + 2 * distance)
        { s with values := values }

/- The indices after a given one. -/
def indices
    (next : Nat → Nat)
    (index count : Nat) : List Nat :=
  (List.range count).map fun c => next^[c + 1] index

theorem indices_succ
    (next : Nat → Nat)
    (index count : Nat) :
    indices next index (count + 1) =
      next index :: indices next (next index) count := by
  unfold indices
  rw [List.range_succ_eq_map, List.map_cons, List.map_map]
  rfl

theorem runs_readRoot
    {index : Nat}
    (s : State)
    (hLt : index < 256) :
    Runs (readRoot index s : Access ε (Int × State))
      (.ok
        (Field.scaledRoot index,
          ⟨s.values, index, s.reads ++ [index]⟩)) := by
  have hWord := Field.getElem?_rootWords hLt
  exact (runs_expect hWord).ok_bind (runs_pure _)

/-
  Blocks do not meet either.  All halves from a place on are
  replaced as they were before, and the others are kept.
-/
theorem blocks_runs
    {bound bound' : Int}
    {pair : Int → Int → Int → Access ε (Int × Int)}
    {halves :
      Int → Vector Int (2 ^ d) → Vector Int (2 ^ d) →
        Outcome ε (Vector Int (2 ^ d) × Vector Int (2 ^ d))}
    (next : Nat → Nat)
    (hPairwise : Pairwise d bound bound' pair halves)
    (hBounds : bound ≤ bound')
    (count place : Nat)
    (s : State)
    (hRoom : place + count * (2 * 2 ^ d) ≤ degree)
    (hIndex : ∀ c < count, next^[c + 1] s.index < 256)
    (hWithin :
      ∀ i, place ≤ i → Word.Within bound (entry s.values i)) :
    ∃ w : Poly,
      Runs (blocks pair next (2 ^ d) count place s)
          (.ok
            ⟨w, next^[count] s.index,
              s.reads ++ indices next s.index count⟩)
        ∧ (∀ c < count,
          halves
              (Field.scaledRoot (next^[c + 1] s.index))
              (block d s.values (place + c * (2 * 2 ^ d)))
              (block d s.values
                (place + c * (2 * 2 ^ d) + 2 ^ d)) =
            .ok
              (block d w (place + c * (2 * 2 ^ d)),
                block d w (place + c * (2 * 2 ^ d) + 2 ^ d)))
        ∧ (∀ i, i < place → entry w i = entry s.values i)
        ∧ ∀ i, place ≤ i → Word.Within bound' (entry w i) := by
  induction count generalizing place s with
  | zero =>
      refine ⟨s.values, ?_, ?_, fun _ _ => rfl, ?_⟩
      · unfold indices
        rw [List.range_zero, List.map_nil, List.append_nil]
        exact runs_pure s
      · intro c hc
        omega
      · intro i hi
        exact (hWithin i hi).mono hBounds
  | succ count ih =>
      rw [Nat.succ_mul] at hRoom
      have hRead : next s.index < 256 := hIndex 0 (by omega)
      rcases row_runs_of_pairwise hPairwise
          (Transform.scaledRoot_within (next s.index))
          (by omega) hWithin with
        ⟨u, hRow, hFirst, hFrame, hNear⟩
      have hRest :
          ∀ i, place + 2 * 2 ^ d ≤ i →
            Word.Within bound (entry u i) := by
        intro i hi
        rw [hFrame i (Or.inr hi)]
        exact hWithin i (by omega)
      rcases ih (place + 2 * 2 ^ d)
          ⟨u, next s.index, s.reads ++ [next s.index]⟩
          (by omega)
          (fun c hc => hIndex (c + 1) (by omega)) hRest with
        ⟨w, hBlocks, hOthers, hKept, hFar⟩
      have hSame :
          ∀ i, i < place + 2 * 2 ^ d → entry w i = entry u i :=
        hKept
      refine ⟨w, ?_, ?_, ?_, ?_⟩
      · rw [indices_succ, List.append_cons]
        refine (runs_readRoot s hRead).ok_bind ?_
        exact hRow.ok_bind hBlocks
      · intro c hc
        cases c with
        | zero =>
            have hLower : block d w place = block d u place :=
              block_congr fun i _ hi => hSame i (by omega)
            have hUpper :
                block d w (place + 2 ^ d) =
                  block d u (place + 2 ^ d) :=
              block_congr fun i _ hi => hSame i (by omega)
            rw [Nat.zero_mul, Nat.add_zero place, hLower, hUpper]
            exact hFirst
        | succ c =>
            have hPlace :
                place + (c + 1) * (2 * 2 ^ d) =
                  place + 2 * 2 ^ d + c * (2 * 2 ^ d) := by
              rw [Nat.succ_mul]
              omega
            have hBefore :
                ∀ start, place + 2 * 2 ^ d ≤ start →
                  block d s.values start = block d u start :=
              fun start hStart =>
                block_congr fun i hi _ =>
                  (hFrame i (Or.inr (by omega))).symm
            rw [hPlace, hBefore _ (by omega),
              hBefore _ (by omega)]
            exact hOthers c (by omega)
      · intro i hi
        rw [hSame i (by omega), hFrame i (Or.inl hi)]
      · intro i hi
        by_cases hLate : place + 2 * 2 ^ d ≤ i
        · exact hFar i hLate
        · rw [hSame i (by omega)]
          exact hNear i hi (by omega)

/- Two blocks of a layer are the halves of a larger one. -/
theorem place_halves
    (c depth : Nat) :
    c * 2 ^ (depth + 1) = 2 * c * 2 ^ depth
      ∧ 2 * c * 2 ^ depth + 2 ^ depth =
        (2 * c + 1) * 2 ^ depth := by
  rw [Nat.pow_succ']
  constructor <;> ring

theorem two_mul_le_of_blocks
    {count depth : Nat}
    (hCount : count * 2 ^ (depth + 1) = 256) :
    1 ≤ count ∧ 2 * count ≤ 256 := by
  have hPos : 0 < count := by
    apply Nat.pos_of_ne_zero
    rintro rfl
    rw [Nat.zero_mul] at hCount
    omega
  have hPow : 2 ≤ 2 ^ (depth + 1) := by
    rw [Nat.pow_succ']
    exact Nat.le_mul_of_pos_right 2 (Nat.two_pow_pos depth)
  have hLe := Nat.mul_le_mul_left count hPow
  omega

/- The indices of a layer come before those of smaller blocks. -/
theorem indices_append
    {count : Nat}
    (hFew : 2 * count ≤ 256) :
    List.range' count count
        ++ List.range' (2 * count) (256 - 2 * count) =
      List.range' count (256 - count) := by
  have hSum : 256 - count = count + (256 - 2 * count) := by
    omega
  rw [hSum, two_mul, List.range'_append_1]

end Network

end LatticeSignature
