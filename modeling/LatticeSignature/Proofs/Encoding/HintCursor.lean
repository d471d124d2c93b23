import LatticeSignature.Proofs.Access
import LatticeSignature.Proofs.Encoding.Hints

/-
  The hint section as a cursor over its bytes, which is moved
  by index.  Reading and writing by cursor stays within the
  section and agrees with the section as a list of rows.

  Main declarations:
    * `HintCursor.markRow`, `HintCursor.readRows`
    * `HintCursor.readHints`
    * `HintCursor.readHints_runs`
    * `HintCursor.writeRow`, `HintCursor.writeRows`
    * `HintCursor.writeHints`
    * `HintCursor.buffer`
    * `HintCursor.writeHints_runs`
-/

------------------------------------------------------------
-- Reading
------------------------------------------------------------

namespace LatticeSignature

namespace HintCursor

open Outcome Access Encoding

/- The position at an index is above the one before it. -/
def checkAbove
    (bytes : Bytes)
    (first index : Nat)
    (b : UInt8) : Access SchemeError Unit :=
  if first < index then do
    let before ← byteAt bytes (index - 1)
    ofOutcome
      (require (before < b)
        (.deserialization "hint indices not increasing"))
  else
    pure ()

/-
  Set the hints at `count` positions of a row, whose first
  position has the index `first`.
-/
def markRow
    (bytes : Bytes)
    (first : Nat) :
    (count index : Nat) →
      Vector Bool degree →
      Access SchemeError (Vector Bool degree)
  | 0, _, row => pure row
  | count + 1, index, row => do
      let b ← byteAt bytes index
      checkAbove bytes first index b
      markRow bytes first count (index + 1)
        (row.set b.toNat true b.toNat_lt)

/-
  Read the remaining rows, with the number of positions that
  all rows have together.
-/
def readRows
    (omega : Nat)
    (bytes : Bytes) :
    (remaining row done : Nat) →
      Access SchemeError (List (Vector Bool degree) × Nat)
  | 0, _, done => pure ([], done)
  | remaining + 1, row, done => do
      let total ← byteAt bytes (omega + row)
      ofOutcome
        (require (done ≤ total.toNat && total.toNat ≤ omega)
          (.deserialization "malformed hint counts"))
      let hints ←
        markRow bytes done (total.toNat - done) done
          (Vector.replicate degree false)
      let (rest, done) ←
        readRows omega bytes remaining (row + 1) total.toNat
      return (hints :: rest, done)

/- Read a hint section by index. -/
def readHints
    (p : ParameterSet)
    (bytes : Bytes) : Access SchemeError (Hints p.rows) := do
  ofOutcome (checkHintSize p bytes.length)
  let (rows, done) ← readRows p.omega bytes p.rows 0 0
  let padding ← slice bytes done p.omega
  ofOutcome
    (require (padding.all (· == 0))
      (.deserialization "nonzero hint padding"))
  ofList p.rows rows

------------------------------------------------------------
-- Rows by Index
------------------------------------------------------------

/- The row after setting hints at given positions. -/
def mark
    (indices : Bytes)
    (row : Vector Bool degree) : Vector Bool degree :=
  indices.foldl (fun row b => row.set b.toNat true b.toNat_lt) row

theorem getElem_mark
    (indices : Bytes)
    (row : Vector Bool degree)
    (j : Fin degree) :
    (mark indices row)[j] = true
      ↔ row[j] = true ∨ UInt8.ofNat j.val ∈ indices := by
  induction indices generalizing row with
  | nil => simp [mark]
  | cons b rest ih =>
      have hPlace : b.toNat = j.val ↔ UInt8.ofNat j.val = b := by
        rw [← UInt8.toNat_inj, toNat_ofNat, eq_comm]
      have hSet :
          (row.set b.toNat true b.toNat_lt)[j] = true
            ↔ row[j] = true ∨ UInt8.ofNat j.val = b := by
        rw [← hPlace, getElem_index, Vector.getElem_set]
        split <;> simp_all
      rw [mark, List.foldl_cons]
      refine (ih _).trans ?_
      rw [hSet, List.mem_cons, or_assoc]

/- From an empty row, the row of the positions is made. -/
theorem mark_replicate
    (indices : Bytes) :
    mark indices (Vector.replicate degree false) =
      rowOfPositions indices := by
  apply Vector.ext
  intro j hj
  rw [Bool.eq_iff_iff]
  have hMark :=
    getElem_mark indices (Vector.replicate degree false) ⟨j, hj⟩
  have hRow := getElem_rowOfPositions indices ⟨j, hj⟩
  simp only [getElem_index, Vector.getElem_replicate,
    Bool.false_eq_true, false_or] at hMark hRow
  rw [hMark, hRow]

/- Two requirements with one cause are a single one. -/
theorem require_and
    {ε α : Type}
    (c d : Bool)
    (cause : ε)
    (rest : Outcome ε α) :
    (require (c && d) cause >>= fun _ => rest) =
      require c cause >>= fun _ =>
        require d cause >>= fun _ => rest := by
  cases c <;> rfl

/-
  Within a row, the position before the cursor takes part in
  the check of the order.
-/
theorem markRow_runs_of_lt
    (bytes : Bytes)
    (first count index : Nat)
    (row : Vector Bool degree)
    (hInside : first < index)
    (hBound : index + count ≤ bytes.length) :
    Runs (markRow bytes first count index row)
      (require
          (increasing ((bytes.drop (index - 1)).take (count + 1)))
          (.deserialization "hint indices not increasing")
        >>= fun _ =>
          .ok (mark ((bytes.drop index).take count) row)) := by
  have hBefore :
      bytes.drop (index - 1) =
        bytes[index - 1] :: bytes.drop index := by
    rw [List.drop_eq_getElem_cons (by omega)]
    congr 2
    omega
  induction count generalizing index row with
  | zero =>
      rw [hBefore]
      exact runs_pure _
  | succ count ih =>
      have hHere : bytes.drop index = bytes[index] :: _ :=
        List.drop_eq_getElem_cons (by omega)
      have hNext :=
        ih (index + 1) (row.set bytes[index].toNat true
            bytes[index].toNat_lt)
          (by omega) (by omega)
          (List.drop_eq_getElem_cons (by omega))
      rw [Nat.add_sub_cancel, hHere, List.take_succ_cons]
        at hNext
      rw [hBefore, hHere, List.take_succ_cons,
        List.take_succ_cons, increasing, require_and]
      refine Runs.ok_bind (runs_byteAt (by omega)) ?_
      refine Runs.bind ?_ fun _ _ => hNext
      rw [checkAbove, if_pos hInside]
      exact Runs.ok_bind (runs_byteAt (by omega))
        (runs_ofOutcome _)

/- The positions of a row are checked and marked in order. -/
theorem markRow_runs
    {bytes : Bytes}
    (first count : Nat)
    (hBound : first + count ≤ bytes.length) :
    Runs
      (markRow bytes first count first
        (Vector.replicate degree false))
      (require (increasing ((bytes.drop first).take count))
          (.deserialization "hint indices not increasing")
        >>= fun _ =>
          .ok (rowOfPositions ((bytes.drop first).take count))) := by
  rw [← mark_replicate]
  cases count with
  | zero => exact runs_pure _
  | succ count =>
      have hHere : bytes.drop first = bytes[first] :: _ :=
        List.drop_eq_getElem_cons (by omega)
      have hRest :=
        markRow_runs_of_lt bytes first count (first + 1)
          ((Vector.replicate degree false).set
            bytes[first].toNat true bytes[first].toNat_lt)
          (by omega) (by omega)
      rw [Nat.add_sub_cancel, hHere, List.take_succ_cons]
        at hRest
      rw [hHere, List.take_succ_cons]
      refine Runs.ok_bind (runs_byteAt (by omega)) ?_
      rw [checkAbove, if_neg (by omega)]
      exact Runs.ok_bind (runs_pure _) hRest

/-
  The rows that are left are those that are cut at the counts
  that are left.
-/
theorem readRows_runs
    {omega : Nat}
    {bytes : Bytes}
    (remaining row done : Nat)
    (hSize : omega + row + remaining = bytes.length)
    (hDone : done ≤ omega) :
    Runs (readRows omega bytes remaining row done)
      (takeRows omega
          ((bytes.drop (omega + row)).map UInt8.toNat) done
          ((bytes.take omega).drop done)
        >>= fun cut =>
          .ok
            (cut.1.map rowOfPositions,
              omega - cut.2.length)) := by
  induction remaining generalizing row done with
  | zero =>
      have hNone : bytes.drop (omega + row) = [] := by
        apply List.drop_eq_nil_of_le
        omega
      have hLeft :
          omega - ((bytes.take omega).drop done).length = done := by
        rw [List.length_drop, List.length_take]
        omega
      rw [hNone, List.map_nil, takeRows, Outcome.ok_bind, hLeft]
      exact runs_pure _
  | succ remaining ih =>
      have hHere :
          bytes.drop (omega + row) = bytes[omega + row] :: _ :=
        List.drop_eq_getElem_cons (by omega)
      rw [hHere, List.map_cons, takeRows, bind_assoc]
      refine Runs.ok_bind (runs_byteAt (by omega)) ?_
      refine (runs_ofOutcome _).bind ?_
      rintro ⟨⟩ hCount
      generalize bytes[omega + row].toNat = total at *
      rw [require_eq_ok_iff, Bool.and_eq_true,
        decide_eq_true_eq, decide_eq_true_eq] at hCount
      have hRow :
          ((bytes.take omega).drop done).take (total - done) =
            (bytes.drop done).take (total - done) := by
        rw [List.drop_take, List.take_take]
        congr 1
        omega
      have hRest :
          ((bytes.take omega).drop done).drop (total - done) =
            (bytes.take omega).drop total := by
        rw [List.drop_drop]
        congr 1
        omega
      have hNext := ih (row + 1) total (by omega) hCount.2
      dsimp only
      rw [hRow, hRest, bind_assoc]
      refine Runs.congr
        ((markRow_runs done (total - done) (by omega)).bind
          fun hints _ =>
            hNext.bind
              (g := fun rest => .ok (hints :: rest.1, rest.2))
              fun _ _ => runs_pure _) ?_
      simp only [bind_assoc]
      rfl

/- What is left after the rows is the padding of a section. -/
theorem left_eq_part
    {omega : Nat}
    {bytes left : Bytes}
    {rows : List Bytes}
    (hIndices : bytes.take omega = rows.flatten ++ left)
    (hOmega : omega ≤ bytes.length) :
    left.length ≤ omega
      ∧ part bytes (omega - left.length)
          (omega - (omega - left.length)) = left := by
  have hLength := congrArg List.length hIndices
  rw [List.length_take, List.length_append,
    Nat.min_eq_left hOmega] at hLength
  refine ⟨by omega, ?_⟩
  have hStart : omega - left.length = rows.flatten.length := by
    omega
  rw [part, ← List.drop_take, hStart, hIndices, List.drop_left]

/-
  A hint section of any bytes is read in bounds, with the
  outcome of cutting it into rows.
-/
theorem readHints_runs
    (p : ParameterSet)
    (bytes : Bytes) :
    Runs (readHints p bytes) (unpackHints p bytes) := by
  refine (runs_ofOutcome _).bind ?_
  rintro ⟨⟩ hCheck
  have hSize : bytes.length = p.omega + p.rows :=
    beq_iff_eq.1 ((require_eq_ok_iff _ _).1 hCheck)
  have hRows :
      Runs (readRows p.omega bytes p.rows 0 0) _ :=
    readRows_runs p.rows 0 0 hSize.symm (Nat.zero_le p.omega)
  have hFront : 0 + (bytes.take p.omega).length = p.omega := by
    rw [List.length_take]
    omega
  have hDecides :=
    takeRows_decides ((bytes.drop p.omega).map UInt8.toNat) 0
      (bytes.take p.omega) hFront
  rw [Nat.add_zero, List.drop_zero] at hRows
  dsimp only
  -- The padding is known only when the rows are cut.
  cases hCut :
    takeRows p.omega ((bytes.drop p.omega).map UInt8.toNat) 0
      (bytes.take p.omega) with
  | error stop =>
      rw [hCut] at hRows
      exact Runs.error_bind hRows _
  | ok cut =>
      rcases cut with ⟨rows, left⟩
      rcases hDecides.of_eq_ok hCut with
        ⟨_, hCount, _, hIndices⟩
      rcases left_eq_part hIndices (by omega) with
        ⟨hLeft, hPadding⟩
      have hLength : (rows.map rowOfPositions).length = p.rows := by
        rw [List.length_map, hCount, List.length_map,
          List.length_drop]
        omega
      rw [hCut, Outcome.ok_bind] at hRows
      rw [Outcome.ok_bind]
      refine hRows.ok_bind ?_
      refine (runs_slice (by omega) (by omega)).ok_bind ?_
      rw [hPadding]
      refine (runs_ofOutcome _).bind ?_
      rintro ⟨⟩ _
      refine (runs_ofList hLength).congr (congrArg Except.ok ?_)
      apply Vector.ext
      intro i hi
      have hRow : i < rows.length := by
        rw [List.length_map] at hLength
        omega
      simp [hRow]

------------------------------------------------------------
-- Writing
------------------------------------------------------------

/-
  Write the positions of a row from an index on.  There are
  `omega` places for the positions of all rows.
-/
def writeRow
    (omega : Nat)
    (row : Vector Bool degree) :
    List (Fin degree) →
      Nat →
      Bytes →
      Access SchemeError (Nat × Bytes)
  | [], index, out => pure (index, out)
  | j :: rest, index, out =>
      if row[j] then do
        ofOutcome
          (require (index != omega)
            (.deserialization "too many hint bits"))
        let out ← putByte out index (UInt8.ofNat j.val)
        writeRow omega row rest (index + 1) out
      else
        writeRow omega row rest index out

/- Write the remaining rows, and a count after each of them. -/
def writeRows
    (omega : Nat) :
    List (Vector Bool degree) →
      (row index : Nat) →
      Bytes →
      Access SchemeError Bytes
  | [], _, _, out => pure out
  | hints :: rest, row, index, out => do
      let (index, out) ←
        writeRow omega hints (List.finRange degree) index out
      let out ← putByte out (omega + row) (UInt8.ofNat index)
      writeRows omega rest (row + 1) index out

/- Write a hint section by index into a buffer of zeros. -/
def writeHints
    (p : ParameterSet)
    (space : Nat)
    (h : Hints p.rows) : Access SchemeError Bytes := do
  ofOutcome (checkHintSize p space)
  writeRows p.omega h.toList 0 0 (List.replicate space 0)

------------------------------------------------------------
-- Sections by Index
------------------------------------------------------------

/- The first of some zeros is replaced by a byte. -/
theorem set_append_replicate
    (front back : Bytes)
    (zeros : Nat)
    (b : UInt8) :
    (front ++ List.replicate (zeros + 1) 0 ++ back).set
        front.length b =
      front ++ [b] ++ List.replicate zeros 0 ++ back := by
  rw [List.append_assoc, List.set_append_right _ _ (le_refl _),
    Nat.sub_self, List.replicate_succ, List.cons_append,
    List.set_cons_zero]
  simp

/-
  A section with some positions in front, zeros in the other
  places for positions, and given bytes for the counts.
-/
def buffer
    (omega : Nat)
    (front back : Bytes) : Bytes :=
  front ++ List.replicate (omega - front.length) 0 ++ back

/- One more position takes its place from the zeros. -/
theorem putByte_position_runs
    {omega : Nat}
    {front : Bytes}
    (back : Bytes)
    (b : UInt8)
    (hRoom : front.length < omega) :
    Runs
      (putByte (buffer omega front back) front.length b
        : Access SchemeError Bytes)
      (.ok (buffer omega (front ++ [b]) back)) := by
  have hZeros :
      omega - front.length = omega - (front.length + 1) + 1 := by
    omega
  have hInside :
      front.length < (buffer omega front back).length := by
    simp only [buffer, List.length_append, List.length_replicate]
    omega
  refine (runs_putByte b hInside).congr (congrArg Except.ok ?_)
  rw [buffer, hZeros, set_append_replicate, buffer,
    List.length_append, List.length_singleton]

/- One more count takes its place behind all positions. -/
theorem putByte_count_runs
    {omega : Nat}
    {front : Bytes}
    (counts : Bytes)
    (zeros : Nat)
    (b : UInt8)
    (hFront : front.length ≤ omega) :
    Runs
      (putByte
        (buffer omega front
          (counts ++ List.replicate (zeros + 1) 0))
        (omega + counts.length) b
        : Access SchemeError Bytes)
      (.ok
        (buffer omega front
          (counts ++ [b] ++ List.replicate zeros 0))) := by
  have hPlace :
      omega + counts.length =
        (buffer omega front counts).length := by
    simp only [buffer, List.length_append, List.length_replicate]
    omega
  have hInside :
      omega + counts.length <
        (buffer omega front
          (counts ++ List.replicate (zeros + 1) 0)).length := by
    simp only [buffer, List.length_append, List.length_replicate]
    omega
  have hSet :=
    set_append_replicate (buffer omega front counts) [] zeros b
  refine (runs_putByte b hInside).congr (congrArg Except.ok ?_)
  rw [← hPlace] at hSet
  simpa only [buffer, List.append_assoc, List.append_nil]
    using hSet

/- The positions of a row among given places. -/
def positionsIn
    (row : Vector Bool degree)
    (places : List (Fin degree)) : Bytes :=
  places.filterMap fun j =>
    if row[j] then some (UInt8.ofNat j.val) else none

/- A row writes its positions, unless there are too many. -/
theorem writeRow_runs
    {omega : Nat}
    (row : Vector Bool degree)
    (places : List (Fin degree))
    (front back : Bytes)
    (hFront : front.length ≤ omega) :
    Runs
      (writeRow omega row places front.length
        (buffer omega front back))
      (require
          ((front ++ positionsIn row places).length ≤ omega)
          (.deserialization "too many hint bits")
        >>= fun _ =>
          .ok
            ((front ++ positionsIn row places).length,
              buffer omega (front ++ positionsIn row places)
                back)) := by
  induction places generalizing front with
  | nil =>
      have hNone : front ++ positionsIn row [] = front :=
        List.append_nil front
      rw [hNone, require_bind (decide_eq_true hFront)]
      exact runs_pure _
  | cons j rest ih =>
      rw [writeRow]
      by_cases hSet : row[j] = true
      swap
      · have hSame :
            positionsIn row (j :: rest) = positionsIn row rest := by
          rw [positionsIn, List.filterMap_cons, if_neg hSet]
          rfl
        rw [if_neg hSet, hSame]
        exact ih front hFront
      have hMore :
          front ++ positionsIn row (j :: rest) =
            front ++ [UInt8.ofNat j.val]
              ++ positionsIn row rest := by
        rw [positionsIn, List.filterMap_cons, if_pos hSet,
          List.append_assoc]
        rfl
      rw [if_pos hSet, hMore]
      have hNextLength :
          (front ++ [UInt8.ofNat j.val]).length =
            front.length + 1 := by
        rw [List.length_append, List.length_singleton]
      -- Without room, the row is refused here, whatever follows.
      by_cases hFull : front.length = omega
      · have hTooMany :
            decide
                ((front ++ [UInt8.ofNat j.val]
                    ++ positionsIn row rest).length ≤ omega) =
              false := by
          rw [decide_eq_false_iff_not, List.length_append]
          omega
        have hRefused : (front.length != omega) = false := by
          simpa using hFull
        rw [hTooMany]
        exact runs_require_of_false hRefused _ _
      · have hRoom : (front.length != omega) = true := by
          simpa using hFull
        have hPut :=
          putByte_position_runs back (UInt8.ofNat j.val)
            (show front.length < omega by omega)
        have hNext :=
          ih (front ++ [UInt8.ofNat j.val]) (by omega)
        rw [hNextLength] at hNext
        rw [hRoom]
        exact Runs.ok_bind (runs_ofOutcome _)
          (hPut.ok_bind hNext)

/-
  The remaining rows are written behind those that are done,
  and their counts behind the counts that are done.
-/
theorem writeRows_runs
    (omega : Nat)
    (rows : List (Vector Bool degree))
    (front counts : Bytes)
    (hFront : front.length ≤ omega) :
    Runs
      (writeRows omega rows counts.length front.length
        (buffer omega front
          (counts ++ List.replicate rows.length 0)))
      (require
          ((front ++ (rows.map positions).flatten).length
            ≤ omega)
          (.deserialization "too many hint bits")
        >>= fun _ =>
          .ok
            (buffer omega
              (front ++ (rows.map positions).flatten)
              (counts
                ++ (totals front.length
                    ((rows.map positions).map List.length)).map
                  UInt8.ofNat))) := by
  induction rows generalizing front counts with
  | nil =>
      have hNone :
          front ++ (([] : List (Vector Bool degree)).map
            positions).flatten = front :=
        List.append_nil front
      rw [hNone, require_bind (decide_eq_true hFront)]
      exact runs_pure _
  | cons row rest ih =>
      have hRow :=
        writeRow_runs row (List.finRange degree) front
          (counts ++ List.replicate (rest.length + 1) 0) hFront
      have hAll :
          positionsIn row (List.finRange degree) =
            positions row :=
        rfl
      have hTotals :
          totals front.length
              (((row :: rest).map positions).map List.length) =
            (front ++ positions row).length
              :: totals (front ++ positions row).length
                ((rest.map positions).map List.length) := by
        rw [List.length_append]
        rfl
      rw [hAll] at hRow
      rw [hTotals, List.map_cons, List.map_cons,
        List.flatten_cons, ← List.append_assoc]
      generalize front ++ positions row = written at *
      by_cases hFits : written.length ≤ omega
      swap
      · have hRefused :
            decide
                ((written
                    ++ (rest.map positions).flatten).length
                  ≤ omega) = false := by
          rw [decide_eq_false_iff_not, List.length_append]
          omega
        rw [decide_eq_false hFits] at hRow
        rw [hRefused]
        exact Runs.error_bind hRow _
      rw [require_bind (decide_eq_true hFits)] at hRow
      have hPut :=
        putByte_count_runs counts rest.length
          (UInt8.ofNat written.length) hFits
      have hNext :=
        ih written (counts ++ [UInt8.ofNat written.length]) hFits
      rw [List.length_append, List.length_singleton,
        List.append_assoc counts, List.append_assoc counts]
        at hNext
      rw [List.append_assoc counts] at hPut
      exact hRow.ok_bind (hPut.ok_bind hNext)

/- A hint section is written in bounds. -/
theorem writeHints_runs
    (p : ParameterSet)
    (space : Nat)
    (h : Hints p.rows) :
    Runs (writeHints p space h) (packHints p space h) := by
  refine (runs_ofOutcome _).bind ?_
  rintro ⟨⟩ hCheck
  have hSpace : space = p.omega + p.rows :=
    beq_iff_eq.1 ((require_eq_ok_iff _ _).1 hCheck)
  have hRows :=
    writeRows_runs p.omega h.toList [] [] (Nat.zero_le _)
  have hBuffer :
      List.replicate space (0 : UInt8) =
        buffer p.omega []
          ([] ++ List.replicate h.toList.length 0) := by
    rw [hSpace, Vector.length_toList, List.replicate_add]
    rfl
  rw [hBuffer]
  exact hRows

end HintCursor

end LatticeSignature
