import LatticeSignature.Proofs.Encoding.HintCursor
import Mathlib.Algebra.BigOperators.Fin
import Mathlib.Data.Fintype.BigOperators

/-
  A vector of zeros and ones has exactly one hint section, if
  it has any, and no other byte string is read as a section.

  Main declarations:
    * `PolyVec.IsBinary`, `PolyVec.nonzeros`
    * `Hints.ofVec`, `Hints.toVec`
    * `Hints.weight_ofVec`
    * `Encoding.hint_section_canonical`
-/

------------------------------------------------------------
-- Vectors of Zeros and Ones
------------------------------------------------------------

namespace LatticeSignature

open Outcome

namespace PolyVec

variable {n : Nat}

/- All coefficients are zero or one. -/
def IsBinary
    (v : PolyVec n) : Prop :=
  ∀ (i : Fin n) (k : Fin degree), v[i][k] = 0 ∨ v[i][k] = 1

/- The number of coefficients that are not zero. -/
def nonzeros
    (v : PolyVec n) : Nat :=
  Finset.card
    (Finset.univ.filter fun place : Fin n × Fin degree =>
      v[place.1][place.2] ≠ 0)

end PolyVec

namespace Hints

variable {n : Nat}

/- The hints at the places of nonzero coefficients. -/
def ofVec
    (v : PolyVec n) : Hints n :=
  v.map fun row => row.map fun c => c != 0

/- The vector that is one where a hint is set. -/
def toVec
    (h : Hints n) : PolyVec n :=
  h.map fun row => row.map fun hint => if hint then 1 else 0

theorem getElem_ofVec
    (v : PolyVec n)
    (i : Fin n)
    (k : Fin degree) :
    (ofVec v)[i][k] = (v[i][k] != 0) := by
  simp [ofVec]

theorem getElem_toVec
    (h : Hints n)
    (i : Fin n)
    (k : Fin degree) :
    (toVec h)[i][k] = if h[i][k] then 1 else 0 := by
  simp [toVec]

theorem isBinary_toVec
    (h : Hints n) :
    (toVec h).IsBinary := by
  intro i k
  rw [getElem_toVec]
  split
  · exact Or.inr rfl
  · exact Or.inl rfl

theorem ofVec_toVec
    (h : Hints n) :
    ofVec (toVec h) = h := by
  apply Vector.ext
  intro i hi
  apply Vector.ext
  intro k hk
  have hEntry := getElem_ofVec (toVec h) ⟨i, hi⟩ ⟨k, hk⟩
  rw [getElem_toVec] at hEntry
  refine hEntry.trans ?_
  cases h[i][k] <;> rfl

theorem toVec_ofVec
    {v : PolyVec n}
    (hBinary : v.IsBinary) :
    toVec (ofVec v) = v := by
  apply Vector.ext
  intro i hi
  apply Vector.ext
  intro k hk
  have hEntry := getElem_toVec (ofVec v) ⟨i, hi⟩ ⟨k, hk⟩
  rw [getElem_ofVec] at hEntry
  refine hEntry.trans ?_
  rcases hBinary ⟨i, hi⟩ ⟨k, hk⟩ with hZero | hOne
  · rw [hZero]
    exact hZero.symm
  · rw [hOne]
    exact hOne.symm

/- A sum over the entries of a vector, by index. -/
theorem sum_map_toList
    {α : Type}
    (f : α → Nat)
    (v : Vector α n) :
    (v.toList.map f).sum = ∑ i : Fin n, f v[i] := by
  have hList :
      v.toList.map f = List.ofFn fun i : Fin n => f v[i] := by
    apply List.ext_getElem
    · simp
    · intro i _ _
      simp
  rw [hList, List.sum_ofFn]

/- A row weighs one for every hint that is set. -/
theorem rowWeight_eq_sum
    (row : Vector Bool degree) :
    rowWeight row = ∑ k : Fin degree, (row[k]).toNat := by
  have hCount :
      ∀ bits : List Bool,
        bits.count true = (bits.map Bool.toNat).sum := by
    intro bits
    induction bits with
    | nil => rfl
    | cons bit rest ih =>
        rw [List.count_cons, List.map_cons, List.sum_cons, ih]
        cases bit <;> simp [Nat.add_comm]
  rw [rowWeight, hCount, sum_map_toList]

theorem weight_eq_sum
    (h : Hints n) :
    h.weight =
      ∑ i : Fin n, ∑ k : Fin degree, (h[i][k]).toNat := by
  rw [weight, sum_map_toList]
  exact Finset.sum_congr rfl fun i _ => rowWeight_eq_sum h[i]

/- Hints are set at the nonzero coefficients. -/
theorem weight_ofVec
    (v : PolyVec n) :
    (ofVec v).weight = v.nonzeros := by
  rw [weight_eq_sum, PolyVec.nonzeros, Finset.card_filter,
    Fintype.sum_prod_type]
  apply Finset.sum_congr rfl
  intro i _
  apply Finset.sum_congr rfl
  intro k _
  rw [getElem_ofVec]
  by_cases hZero : v[i][k] = 0
  · rw [if_neg (not_not.2 hZero), hZero]
    rfl
  · rw [if_pos hZero, bne_iff_ne.2 hZero]
    rfl

end Hints

------------------------------------------------------------
-- Sections of Vectors
------------------------------------------------------------

namespace Encoding

/- Too many hints are refused with a cause of their own. -/
theorem packHints_eq_fail
    {p : ParameterSet}
    {h : Hints p.rows}
    (hWeight : p.omega < h.weight) :
    packHints p p.hintBytes h =
      fail (.deserialization "too many hint bits") := by
  have hSize : (p.hintBytes == p.hintBytes) = true := BEq.rfl
  have hMany :
      decide ((allPositions h).flatten.length ≤ p.omega) =
        false := by
    rw [decide_eq_false_iff_not, length_flatten_allPositions]
    omega
  rw [packHints, checkHintSize, require_bind hSize]
  dsimp only
  unfold allPositions at hMany
  rw [hMany]
  rfl

/- A byte string is a section of its hints, or it is refused. -/
theorem unpackHints_eq_ok_or_fail
    (p : ParameterSet)
    (s : Bytes) :
    Decides (unpackHints p s) fun h =>
      s.length = p.hintBytes
        ∧ h.weight ≤ p.omega
        ∧ packHints p p.hintBytes h = .ok s := by
  by_cases hSize : s.length = p.hintBytes
  · refine (unpackHints_decides hSize).mono ?_
    rintro h ⟨hWeight, hEncode⟩
    exact ⟨hSize, hWeight,
      (packHints_eq_ok_iff p h s).2 ⟨hWeight, hEncode.symm⟩⟩
  · have hRefused : (s.length == p.hintBytes) = false := by
      simpa using hSize
    refine Or.inr
      ⟨.error (.invalidSignatureSize p.hintBytes s.length), ?_,
        _, rfl⟩
    rw [unpackHints, checkHintSize, hRefused]
    rfl

/- A vector is read from a section only as it is written. -/
theorem packHints_of_unpackHints
    {p : ParameterSet}
    {s : Bytes}
    {v : PolyVec p.rows}
    (h : Hints.toVec <$> unpackHints p s = .ok v) :
    s.length = p.hintBytes
      ∧ v.IsBinary
      ∧ v.nonzeros ≤ p.omega
      ∧ packHints p p.hintBytes (Hints.ofVec v) = .ok s := by
  rcases (map_eq_ok_iff _ _ _).1 h with ⟨hints, hOk, rfl⟩
  rcases (unpackHints_eq_ok_or_fail p s).of_eq_ok hOk with
    ⟨hSize, hWeight, hPack⟩
  rw [← Hints.weight_ofVec, Hints.ofVec_toVec]
  exact ⟨hSize, Hints.isBinary_toVec hints, hWeight, hPack⟩

/-
  Vectors of at most `omega` ones are found again in the one
  section that they have; other vectors have none, and other
  byte strings are refused in bounds.
-/
theorem hint_section_canonical
    (p : ParameterSet) :
    (∀ v : PolyVec p.rows,
      v.IsBinary → v.nonzeros ≤ p.omega →
        Returns (packHints p (p.omega + p.rows) (Hints.ofVec v))
          fun s =>
            s.length = p.omega + p.rows
              ∧ Hints.toVec <$> unpackHints p s = .ok v)
      ∧ (∀ v : PolyVec p.rows,
        p.omega < v.nonzeros →
          packHints p (p.omega + p.rows) (Hints.ofVec v) =
            fail (.deserialization "too many hint bits"))
      ∧ (∀ (s : Bytes) (v : PolyVec p.rows),
        Hints.toVec <$> unpackHints p s = .ok v →
          s.length = p.omega + p.rows
            ∧ v.IsBinary
            ∧ v.nonzeros ≤ p.omega
            ∧ packHints p (p.omega + p.rows) (Hints.ofVec v) =
              .ok s)
      ∧ (∀ (s s' : Bytes) (v : PolyVec p.rows),
        Hints.toVec <$> unpackHints p s = .ok v →
          Hints.toVec <$> unpackHints p s' = .ok v →
            s = s')
      ∧ (∀ s : Bytes,
        Access.Runs (HintCursor.readHints p s) (unpackHints p s)
          ∧ Decides (unpackHints p s) fun _ => True)
      ∧ ∀ (space : Nat) (h : Hints p.rows),
        Access.Runs (HintCursor.writeHints p space h)
          (packHints p space h) := by
  refine ⟨?_, ?_, ?_, ?_, ?_, HintCursor.writeHints_runs p⟩
  · intro v hBinary hWeight
    rw [← Hints.weight_ofVec] at hWeight
    refine ⟨encodeHints p (Hints.ofVec v),
      (packHints_eq_ok_iff p _ _).2 ⟨hWeight, rfl⟩,
      length_encodeHints hWeight, ?_⟩
    rw [unpackHints_encodeHints hWeight, map_eq_ok_iff]
    exact ⟨_, rfl, Hints.toVec_ofVec hBinary⟩
  · intro v hMany
    rw [← Hints.weight_ofVec] at hMany
    exact packHints_eq_fail hMany
  · intro s v hUnpack
    exact packHints_of_unpackHints hUnpack
  · intro s s' v hUnpack hUnpack'
    have hPack := (packHints_of_unpackHints hUnpack).2.2.2
    have hPack' := (packHints_of_unpackHints hUnpack').2.2.2
    injection hPack.symm.trans hPack'
  · intro s
    exact
      ⟨HintCursor.readHints_runs p s,
        (unpackHints_eq_ok_or_fail p s).mono fun _ _ => trivial⟩

end Encoding

end LatticeSignature
