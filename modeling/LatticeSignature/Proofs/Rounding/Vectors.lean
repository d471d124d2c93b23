import LatticeSignature.Proofs.Ring.Products
import LatticeSignature.Proofs.Rounding.Hint

/-
  High parts, low parts and hints of whole vectors.

  Main declarations:
    * `PolyVec.splitWith_returns`
    * `PolyVec.splitPowerOfTwo_returns`
    * `PolyVec.splitBuckets_returns`
    * `Hints.getElem_make`
    * `Hints.apply_returns`
-/

------------------------------------------------------------
-- Split Vectors
------------------------------------------------------------

namespace LatticeSignature

open Outcome

namespace PolyVec

variable {ε : Type}
variable {n : Nat}

/- A vector is split when each of its coefficients is. -/
theorem splitWith_returns
    {split : Int → Outcome ε Rounding.Parts}
    {v : PolyVec n}
    {P : Fin n → Fin degree → Rounding.Parts → Prop}
    (h :
      ∀ (i : Fin n) (k : Fin degree),
        Returns (split v[i][k]) (P i k)) :
    Returns (v.splitWith split) fun parts =>
      ∀ (i : Fin n) (k : Fin degree),
        P i k ⟨parts.high[i][k], parts.low[i][k]⟩ := by
  have hEntries :=
    returns_mapEntries fun i : Fin n => returns_mapEntries (h i)
  refine hEntries.bind ?_
  intro parts hParts
  refine returns_ok ?_
  intro i k
  simpa using hParts i k

/- The parts of least representatives, at 13 bits. -/
theorem splitPowerOfTwo_returns
    {v : PolyVec n}
    (h : v.Canonical) :
    Returns (v.splitPowerOfTwo : Outcome ε (SplitVec n))
      fun parts =>
        ∀ (i : Fin n) (k : Fin degree),
          parts.high[i][k] * 8192 + parts.low[i][k] = v[i][k]
            ∧ 0 ≤ parts.high[i][k] ∧ parts.high[i][k] < 1024
            ∧ -4096 < parts.low[i][k]
            ∧ parts.low[i][k] ≤ 4096 :=
  splitWith_returns fun i k =>
    Rounding.splitPowerOfTwo_returns (h i k).1 (h i k).2

/- The parts of least representatives, by buckets. -/
theorem splitBuckets_returns
    {v : PolyVec n}
    (b : Rounding.Buckets)
    (h : v.Canonical) :
    Returns (v.splitBuckets b : Outcome ε (SplitVec n))
      fun parts =>
        ∀ (i : Fin n) (k : Fin degree),
          parts.high[i][k] = b.highBits (v.elements i k)
            ∧ parts.low[i][k] = b.lowBits (v.elements i k) := by
  have hEntry :
      ∀ (i : Fin n) (k : Fin degree),
        Returns (b.split v[i][k] : Outcome ε Rounding.Parts)
          fun parts =>
            parts.high = b.highBits (v.elements i k)
              ∧ parts.low = b.lowBits (v.elements i k) := by
    intro i k
    have hVal := (h i).val_residues k
    refine ⟨_, b.split_eq_ok (h i k).1 (h i k).2, ?_⟩
    rw [← hVal]
    exact ⟨rfl, rfl⟩
  exact splitWith_returns hEntry

end PolyVec

namespace Hints

variable {ε : Type}
variable {n : Nat}

/- A hint is made for every coefficient on its own. -/
theorem getElem_make
    (b : Rounding.Buckets)
    (low high : PolyVec n)
    (i : Fin n)
    (k : Fin degree) :
    (make b low high)[i][k] = b.leaves low[i][k] high[i][k] := by
  simp [make]

/- Hints are used on least representatives. -/
theorem apply_returns
    (b : Rounding.Buckets)
    (h : Hints n)
    {v : PolyVec n}
    (hv : v.Canonical) :
    Returns (h.apply b v : Outcome ε (PolyVec n)) fun w =>
      ∀ (i : Fin n) (k : Fin degree),
        w[i][k] = b.useHint h[i][k] (v.elements i k) := by
  have hEntry :
      ∀ (i : Fin n) (k : Fin degree),
        Returns (b.restore v[i][k] h[i][k] : Outcome ε Int)
          fun x => x = b.useHint h[i][k] (v.elements i k) :=
    fun i k =>
      ⟨_, b.restore_eq_ok h[i][k] (hv i k).1 (hv i k).2, rfl⟩
  exact
    returns_zipEntries fun i : Fin n =>
      returns_zipEntries (hEntry i)

end Hints

end LatticeSignature
