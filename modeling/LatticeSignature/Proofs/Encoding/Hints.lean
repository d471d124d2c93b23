import LatticeSignature.Encoding.Hints
import LatticeSignature.Proofs.Outcome
import Mathlib.Data.List.Sort

/-
  The hint section is a codec for hints of limited weight:
  every hint vector has one section, and no other byte string
  is accepted.

  Main declarations:
    * `Encoding.rowOfPositions_positions`
    * `Encoding.positions_rowOfPositions`
    * `Encoding.takeRows_flatten`
    * `Encoding.takeRows_decides`
    * `Encoding.packHints_eq_ok_iff`
    * `Encoding.unpackHints_decides`
-/

------------------------------------------------------------
-- Rows
------------------------------------------------------------

namespace LatticeSignature

open scoped Sums

namespace Encoding

open Outcome

/- The check of neighbours is a check of all pairs. -/
theorem increasing_iff
    (indices : Bytes) :
    increasing indices = true ↔ indices.Pairwise (· < ·) := by
  rw [← List.isChain_iff_pairwise]
  fun_induction increasing indices with
  | case1 => simp
  | case2 a => simp
  | case3 a b rest ih => simp [ih]

/- Positions are the indices of the hints that are set. -/
theorem positions_eq
    (row : Vector Bool degree) :
    positions row =
      ((List.finRange degree).filter fun j => row[j]).map
        fun j => UInt8.ofNat j.val := by
  unfold positions
  induction List.finRange degree with
  | nil => rfl
  | cons j rest ih =>
      rw [List.filterMap_cons, List.filter_cons, ih]
      cases row[j] <;> rfl

theorem length_positions
    (row : Vector Bool degree) :
    (positions row).length = Hints.rowWeight row := by
  have hRow :
      row.toList = (List.finRange degree).map fun j => row[j] := by
    apply List.ext_getElem
    · simp
    · intro i hi hi'
      simp
  rw [positions_eq, List.length_map, Hints.rowWeight, hRow,
    List.count, List.countP_map, List.countP_eq_length_filter]
  congr 2
  funext j
  simp

theorem toNat_ofNat
    (j : Fin degree) :
    (UInt8.ofNat j.val).toNat = j.val := by
  rw [UInt8.toNat_ofNat']
  exact Nat.mod_eq_of_lt j.isLt

/- A position is a byte, and every byte is one position. -/
theorem exists_ofNat_eq
    (b : UInt8) :
    ∃ j : Fin degree, UInt8.ofNat j.val = b :=
  ⟨⟨b.toNat, b.toNat_lt⟩, UInt8.ofNat_toNat⟩

theorem ofNat_mem_positions
    (row : Vector Bool degree)
    (j : Fin degree) :
    UInt8.ofNat j.val ∈ positions row ↔ row[j] = true := by
  rw [positions_eq, List.mem_map]
  constructor
  · rintro ⟨i, hi, hEq⟩
    have hSame : i = j := by
      apply Fin.ext
      rw [← toNat_ofNat i, hEq, toNat_ofNat]
    rw [← hSame]
    exact (List.mem_filter.1 hi).2
  · intro hSet
    exact
      ⟨j, List.mem_filter.2 ⟨List.mem_finRange j, hSet⟩, rfl⟩

theorem pairwise_positions
    (row : Vector Bool degree) :
    (positions row).Pairwise (· < ·) := by
  rw [positions_eq, List.pairwise_map]
  refine List.Pairwise.imp ?_
    ((List.sortedLT_finRange degree).pairwise.filter _)
  intro i j hLt
  rw [UInt8.lt_iff_toNat_lt, toNat_ofNat, toNat_ofNat]
  exact hLt

theorem getElem_rowOfPositions
    (indices : Bytes)
    (j : Fin degree) :
    (rowOfPositions indices)[j] = true ↔
      UInt8.ofNat j.val ∈ indices := by
  simp [rowOfPositions]

/- A row is found again from its positions. -/
theorem rowOfPositions_positions
    (row : Vector Bool degree) :
    rowOfPositions (positions row) = row := by
  apply Vector.ext
  intro i hi
  rw [Bool.eq_iff_iff]
  have hEntry := getElem_rowOfPositions (positions row) ⟨i, hi⟩
  rw [ofNat_mem_positions] at hEntry
  exact hEntry

/- Increasing positions are found again from their row. -/
theorem positions_rowOfPositions
    {indices : Bytes}
    (h : indices.Pairwise (· < ·)) :
    positions (rowOfPositions indices) = indices := by
  apply (pairwise_positions _).eq_of_mem_iff h
  intro b
  rcases exists_ofNat_eq b with ⟨j, rfl⟩
  rw [ofNat_mem_positions, getElem_rowOfPositions]

------------------------------------------------------------
-- Cutting Positions into Rows
------------------------------------------------------------

/- Rows in a sequence are cut at their running totals. -/
theorem takeRows_flatten
    {omega : Nat}
    {rows : List Bytes}
    (hRows : ∀ row ∈ rows, row.Pairwise (· < ·))
    (done : Nat)
    (left : Bytes)
    (hSize : done + rows.flatten.length ≤ omega) :
    takeRows omega (totals done (rows.map List.length)) done
        (rows.flatten ++ left) =
      .ok (rows, left) := by
  induction rows generalizing done with
  | nil => rfl
  | cons row rest ih =>
      have hRow : increasing row = true :=
        (increasing_iff row).2 (hRows row List.mem_cons_self)
      have hRest : ∀ r ∈ rest, r.Pairwise (· < ·) :=
        fun r hr => hRows r (List.mem_cons_of_mem _ hr)
      rw [List.flatten_cons, List.length_append] at hSize
      have hCount :
          (done ≤ done + row.length
            && done + row.length ≤ omega) = true := by
        simp only [Bool.and_eq_true, decide_eq_true_eq]
        omega
      rw [List.map_cons, totals, takeRows, require_bind hCount,
        Nat.add_sub_cancel_left, List.flatten_cons,
        List.append_assoc, List.take_left, List.drop_left]
      dsimp only
      rw [require_bind hRow,
        ih hRest (done + row.length) (by omega)]
      rfl

/- What is cut into rows is the sequence of the rows. -/
theorem takeRows_decides
    {omega : Nat}
    (counts : List Nat)
    (done : Nat)
    (indices : Bytes)
    (hSize : done + indices.length = omega) :
    Decides (takeRows omega counts done indices) fun result =>
      (∀ row ∈ result.1, row.Pairwise (· < ·))
        ∧ result.1.length = counts.length
        ∧ counts = totals done (result.1.map List.length)
        ∧ indices = result.1.flatten ++ result.2 := by
  induction counts generalizing done indices with
  | nil =>
      refine Or.inl ⟨([], indices), rfl, ?_, rfl, rfl, rfl⟩
      simp
  | cons total counts ih =>
      refine (require_decides _ _).bind ?_
      rintro ⟨⟩ hCount
      simp only [Bool.and_eq_true, decide_eq_true_eq] at hCount
      refine (require_decides _ _).bind ?_
      rintro ⟨⟩ hRow
      rw [increasing_iff] at hRow
      have hTake :
          (indices.take (total - done)).length = total - done := by
        rw [List.length_take]
        omega
      have hDrop :
          total + (indices.drop (total - done)).length = omega := by
        rw [List.length_drop]
        omega
      refine (ih total _ hDrop).bind ?_
      rintro ⟨rows, left⟩ ⟨hRows, hLength, hCounts, hIndices⟩
      refine Or.inl ⟨(_ :: rows, left), rfl, ?_, ?_, ?_, ?_⟩
      · intro row hMem
        rcases List.mem_cons.1 hMem with rfl | hRest
        · exact hRow
        · exact hRows row hRest
      · simp [hLength]
      · rw [List.map_cons, totals, hTake,
          Nat.add_sub_cancel' hCount.1, ← hCounts]
      · rw [List.flatten_cons, List.append_assoc, ← hIndices,
          List.take_append_drop]

------------------------------------------------------------
-- Hint Sections
------------------------------------------------------------

/- The positions of all rows. -/
def allPositions
    {n : Nat}
    (h : Hints n) : List Bytes :=
  h.toList.map positions

theorem length_flatten_allPositions
    {n : Nat}
    (h : Hints n) :
    (allPositions h).flatten.length = h.weight := by
  rw [List.length_flatten, allPositions, List.map_map,
    Hints.weight]
  congr 1
  apply List.map_congr_left
  intro row _
  exact length_positions row

/- The hint section of a vector, without any check. -/
def encodeHints
    (p : ParameterSet)
    (h : Hints p.rows) : Bytes :=
  (allPositions h).flatten
    ++ List.replicate (p.omega - h.weight) 0
    ++ (totals 0 ((allPositions h).map List.length)).map
      UInt8.ofNat

/- Packing checks nothing but the weight. -/
theorem packHints_eq_ok_iff
    (p : ParameterSet)
    (h : Hints p.rows)
    (s : Bytes) :
    packHints p p.hintBytes h = .ok s ↔
      h.weight ≤ p.omega ∧ s = encodeHints p h := by
  have hSize : (p.hintBytes == p.hintBytes) = true := BEq.rfl
  have hWeight := length_flatten_allPositions h
  unfold allPositions at hWeight
  rw [packHints, checkHintSize, require_bind hSize]
  dsimp only
  rw [hWeight, bind_eq_ok_iff]
  constructor
  · rintro ⟨_, hRequire, hOk⟩
    have hLe := (require_eq_ok_iff _ _).1 hRequire
    rw [decide_eq_true_eq] at hLe
    refine ⟨hLe, ?_⟩
    injection hOk with hEq
    rw [← hEq, encodeHints]
    rfl
  · rintro ⟨hLe, rfl⟩
    refine ⟨(), ?_, rfl⟩
    rw [require_eq_ok_iff, decide_eq_true_eq]
    exact hLe

theorem length_totals
    (done : Nat)
    (counts : List Nat) :
    (totals done counts).length = counts.length := by
  induction counts generalizing done with
  | nil => rfl
  | cons count rest ih => simp [totals, ih]

theorem le_of_mem_totals
    {done t : Nat}
    {counts : List Nat}
    (h : t ∈ totals done counts) :
    t ≤ done + counts.sum := by
  induction counts generalizing done with
  | nil => cases h
  | cons count rest ih =>
      rw [totals, List.mem_cons] at h
      rw [List.sum_cons]
      rcases h with rfl | hRest
      · omega
      · have hLe := ih hRest
        omega

theorem length_encodeHints
    {p : ParameterSet}
    {h : Hints p.rows}
    (hWeight : h.weight ≤ p.omega) :
    (encodeHints p h).length = p.hintBytes := by
  rw [encodeHints, List.length_append, List.length_append,
    length_flatten_allPositions, List.length_replicate,
    List.length_map, length_totals, allPositions,
    List.length_map, List.length_map, Vector.length_toList,
    ParameterSet.hintBytes]
  omega

/- Running totals of a section fit their bytes. -/
theorem map_toNat_totals
    {p : ParameterSet}
    {h : Hints p.rows}
    (hWeight : h.weight ≤ p.omega) :
    ((totals 0 ((allPositions h).map List.length)).map
        UInt8.ofNat).map UInt8.toNat =
      totals 0 ((allPositions h).map List.length) := by
  have hOmega : p.omega < 256 := by
    cases p <;> decide
  have hSum := length_flatten_allPositions h
  rw [List.length_flatten] at hSum
  rw [List.map_map]
  conv_rhs => rw [← List.map_id (totals 0 _)]
  apply List.map_congr_left
  intro t ht
  have hLe := le_of_mem_totals ht
  rw [Function.comp_apply, UInt8.toNat_ofNat', id]
  apply Nat.mod_eq_of_lt
  omega

/- Hints are found again in their section. -/
theorem unpackHints_encodeHints
    {p : ParameterSet}
    {h : Hints p.rows}
    (hWeight : h.weight ≤ p.omega) :
    unpackHints p (encodeHints p h) = .ok h := by
  have hSize :
      ((encodeHints p h).length == p.hintBytes) = true := by
    rw [length_encodeHints hWeight]
    exact BEq.rfl
  have hFront :
      ((allPositions h).flatten
        ++ List.replicate (p.omega - h.weight) (0 : UInt8)).length =
        p.omega := by
    rw [List.length_append, length_flatten_allPositions,
      List.length_replicate]
    omega
  have hRows :
      ∀ row ∈ allPositions h, row.Pairwise (· < ·) := by
    intro row hRow
    rcases List.mem_map.1 hRow with ⟨r, _, rfl⟩
    exact pairwise_positions r
  have hFits : 0 + (allPositions h).flatten.length ≤ p.omega := by
    rw [length_flatten_allPositions]
    omega
  have hTake :=
    takeRows_flatten hRows 0
      (List.replicate (p.omega - h.weight) 0) hFits
  have hPadding :
      (List.replicate (p.omega - h.weight) (0 : UInt8)).all
        (· == 0) = true := by
    simp
  rw [unpackHints, checkHintSize, require_bind hSize,
    encodeHints, List.drop_left' hFront, List.take_left' hFront,
    map_toNat_totals hWeight]
  dsimp only
  rw [hTake, ok_bind, require_bind hPadding]
  refine congrArg Except.ok ?_
  apply Vector.ext
  intro i hi
  simp [allPositions, rowOfPositions_positions]

/- Increasing rows are the positions of the vector they make. -/
theorem allPositions_ofFn
    {n : Nat}
    {rows : List Bytes}
    (hRows : ∀ row ∈ rows, row.Pairwise (· < ·))
    (hCount : rows.length = n) :
    allPositions
        (Vector.ofFn fun i : Fin n =>
          rowOfPositions (rows[i.val]?.getD [])) = rows := by
  apply List.ext_getElem
  · simp [allPositions, hCount]
  · intro i hi hi'
    have hLt : i < n := hCount ▸ hi'
    simp only [allPositions, List.getElem_map,
      Vector.getElem_toList, Vector.getElem_ofFn,
      List.getElem?_eq_getElem hi', Option.getD_some]
    exact positions_rowOfPositions
      (hRows _ (List.getElem_mem hi'))

/- What is unpacked has the section that it comes from. -/
theorem unpackHints_decides
    {p : ParameterSet}
    {s : Bytes}
    (hSize : s.length = p.hintBytes) :
    Decides (unpackHints p s) fun h =>
      h.weight ≤ p.omega ∧ encodeHints p h = s := by
  have hOmega : p.hintBytes = p.omega + p.rows := rfl
  have hCheck : (s.length == p.hintBytes) = true := by
    rw [hSize]
    exact BEq.rfl
  have hFront : 0 + (s.take p.omega).length = p.omega := by
    rw [List.length_take]
    omega
  rw [unpackHints, checkHintSize, require_bind hCheck]
  refine (takeRows_decides _ 0 _ hFront).bind ?_
  rintro ⟨rows, left⟩ ⟨hRows, hLength, hCounts, hIndices⟩
  dsimp only at hRows hLength hCounts hIndices ⊢
  refine (require_decides _ _).bind ?_
  rintro ⟨⟩ hPadding
  have hCount : rows.length = p.rows := by
    rw [hLength, List.length_map, List.length_drop, hSize, hOmega]
    omega
  have hPositions :
      allPositions
          (Vector.ofFn fun i : Fin p.rows =>
            rowOfPositions (rows[i.val]?.getD [])) = rows :=
    allPositions_ofFn hRows hCount
  generalize
    (Vector.ofFn fun i : Fin p.rows =>
      rowOfPositions (rows[i.val]?.getD [])) = h at hPositions ⊢
  have hWeight := length_flatten_allPositions h
  have hLeft : left = List.replicate left.length 0 := by
    rw [List.eq_replicate_iff]
    refine ⟨rfl, fun b hb => ?_⟩
    exact beq_iff_eq.1 (List.all_eq_true.1 hPadding b hb)
  have hSizes := congrArg List.length hIndices
  rw [List.length_append, List.length_take] at hSizes
  rw [hPositions] at hWeight
  have hLeftLength :
      left.length = p.omega - Hints.weight h := by
    omega
  have hTotals :
      (totals 0 (rows.map List.length)).map UInt8.ofNat =
        s.drop p.omega := by
    rw [← hCounts, List.map_map]
    conv_rhs => rw [← List.map_id (s.drop p.omega)]
    apply List.map_congr_left
    intro b _
    exact UInt8.ofNat_toNat
  refine Or.inl ⟨h, rfl, by omega, ?_⟩
  rw [encodeHints, hPositions, hTotals, ← hLeftLength, ← hLeft,
    ← hIndices, List.take_append_drop]

end Encoding

end LatticeSignature
