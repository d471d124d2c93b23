import LatticeSignature.Bytes
import LatticeSignature.Error.Scheme
import LatticeSignature.Ring.PolyVec

/-
  The hint section of a signature.  It lists the positions of
  the hints that are set, row by row, fills up with zeros, and
  ends with the number of positions up to each row.

  Main declarations:
    * `Encoding.positions`
    * `Encoding.packHints`
    * `Encoding.increasing`
    * `Encoding.takeRows`
    * `Encoding.unpackHints`
-/

------------------------------------------------------------
-- Packing and Unpacking
------------------------------------------------------------

namespace LatticeSignature

namespace Encoding

/- The positions of the hints of a row that are set. -/
def positions
    (row : Vector Bool degree) : Bytes :=
  (List.finRange degree).filterMap fun j =>
    if row[j] then some (UInt8.ofNat j.val) else none

/- The running totals of a list of counts. -/
def totals : Nat → List Nat → List Nat
  | _, [] => []
  | sum, count :: rest =>
      (sum + count) :: totals (sum + count) rest

/- Refuse a hint section of a wrong size. -/
def checkHintSize
    (p : ParameterSet)
    (size : Nat) : Outcome SchemeError Unit :=
  Outcome.require
    (size == p.hintBytes)
    (.invalidSignatureSize p.hintBytes size)

/- Pack hints of which at most `omega` are set. -/
def packHints
    (p : ParameterSet)
    (space : Nat)
    (h : Hints p.rows) : Outcome SchemeError Bytes := do
  checkHintSize p space
  let rows := h.toList.map positions
  let indices := rows.flatten
  Outcome.require
    (indices.length ≤ p.omega)
    (.deserialization "too many hint bits")
  let padding := List.replicate (p.omega - indices.length) 0
  let counts := totals 0 (rows.map List.length)
  return indices ++ padding ++ counts.map UInt8.ofNat

/- Whether every position is above the one before it. -/
def increasing : Bytes → Bool
  | [] => true
  | [_] => true
  | a :: b :: rest => a < b && increasing (b :: rest)

/-
  Cut positions into rows at given totals, of which the last
  one was `done`.  The positions after the last row are left.
-/
def takeRows
    (omega : Nat) :
    (counts : List Nat) →
      (done : Nat) →
      (indices : Bytes) →
      Outcome SchemeError (List Bytes × Bytes)
  | [], _, indices => .ok ([], indices)
  | total :: counts, done, indices => do
      Outcome.require
        (done ≤ total && total ≤ omega)
        (.deserialization "malformed hint counts")
      let row := indices.take (total - done)
      Outcome.require
        (increasing row)
        (.deserialization "hint indices not increasing")
      let (rows, left) ←
        takeRows omega counts total
          (indices.drop (total - done))
      return (row :: rows, left)

/- The row with hints at given positions. -/
def rowOfPositions
    (indices : Bytes) : Vector Bool degree :=
  Vector.ofFn fun j => indices.contains (UInt8.ofNat j.val)

/- Unpack a hint section in its only valid form. -/
def unpackHints
    (p : ParameterSet)
    (bytes : Bytes) : Outcome SchemeError (Hints p.rows) := do
  checkHintSize p bytes.length
  let counts := (bytes.drop p.omega).map UInt8.toNat
  let (rows, left) ←
    takeRows p.omega counts 0 (bytes.take p.omega)
  Outcome.require
    (left.all (· == 0))
    (.deserialization "nonzero hint padding")
  return Vector.ofFn fun i =>
    rowOfPositions (rows[i.val]?.getD [])

end Encoding

end LatticeSignature
