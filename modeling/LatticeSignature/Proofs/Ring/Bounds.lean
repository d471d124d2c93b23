import LatticeSignature.Proofs.Access
import LatticeSignature.Proofs.Encoding.Coefficients
import LatticeSignature.Proofs.Ring.Network.Backward
import LatticeSignature.Proofs.Ring.Network.Forward
import LatticeSignature.Proofs.Rounding.Vectors

/-
  Operations on vectors with the ranges that they rely on.
  Transforms are meant for words of a magnitude below `q`, and
  are the networks that work in place, by index.  Residues are
  split in `[0, q)` only, by a known width.

  Main declarations:
    * `Guarded.inPlace`, `Guarded.inPlace_runs`
    * `Guarded.transform`, `Guarded.inverseTransform`
    * `Guarded.liftNegative`, `Guarded.shiftLeft`
    * `Guarded.exceedsNorm`
    * `Guarded.splitPowerOfTwo`, `Guarded.splitBuckets`
    * `Guarded.applyHints`
    * `Guarded.reduced_runs`, `Guarded.matrixProduct_runs`
-/

------------------------------------------------------------
-- Operations with Their Ranges
------------------------------------------------------------

namespace LatticeSignature

namespace Guarded

open Outcome Access

variable {ε : Type}
variable {n : Nat}

/- Run a network on words below `q` and keep what it leaves. -/
def inPlace
    (network : Poly → Access ε Network.State)
    (p : Poly) : Access ε Poly := do
  assuming (Entries.Within (Field.q - 1) p) (.ok ())
  let s ← network p
  return s.values

/- Transform a polynomial. -/
def transformPoly
    (p : Poly) : Access ε Poly :=
  inPlace Network.forward p

/- Undo the transform of a polynomial. -/
def inverseTransformPoly
    (p : Poly) : Access ε Poly :=
  inPlace Network.backward p

/- Transform every polynomial. -/
def transform
    (v : PolyVec n) : Access ε (PolyVec n) :=
  tabulate fun i : Fin n => transformPoly v[i]

/- Undo the transform of every polynomial. -/
def inverseTransform
    (v : PolyVec n) : Access ε (PolyVec n) :=
  tabulate fun i : Fin n => inverseTransformPoly v[i]

/- Add `q` to every negative word above `-q`. -/
def liftNegative
    (v : PolyVec n) : Access ε (PolyVec n) :=
  assuming (v.Within (Field.q - 1)) (.ok v.liftNegative)

/- Move the bits of every word up and keep all of them. -/
def shiftLeft
    (v : PolyVec n)
    (places : Nat) : Access ε (PolyVec n) :=
  tabulate fun i : Fin n =>
    assuming
      (∀ k : Fin degree, Word.Fits32 (v[i][k] * 2 ^ places))
      (Poly.shiftLeft v[i] places)

/- Compare words that have a positive counterpart. -/
def exceedsNorm
    (v : PolyVec n)
    (bound : Int) : Access ε Bool :=
  assuming (v.Within 2147483647) (.ok (v.exceedsNorm bound))

/- Split a residue in `[0, q)` at its 13 low bits. -/
def powerParts
    (a : Int) : Access ε Rounding.Parts := do
  let parts ←
    assuming (0 ≤ a ∧ a < Field.q) (Rounding.splitPowerOfTwo a)
  assuming (Word.Fits32 (parts.high * 8192)) (.ok parts)

/- Split a residue in `[0, q)` by buckets of a known width. -/
def bucketParts
    (halfWidth a : Int) : Access ε Rounding.Parts := do
  let b ← expect (Rounding.Buckets.ofHalfWidth? halfWidth)
  assuming (0 ≤ a ∧ a < Field.q) (b.split a)

/- Split every coefficient. -/
def splitWith
    (split : Int → Access ε Rounding.Parts)
    (v : PolyVec n) : Access ε (SplitVec n) := do
  let parts ←
    tabulate fun i : Fin n =>
      tabulate fun k : Fin degree => split v[i][k]
  return {
    high := parts.map fun p => p.map Rounding.Parts.high
    low := parts.map fun p => p.map Rounding.Parts.low }

/- Split every coefficient at its 13 low bits. -/
def splitPowerOfTwo
    (v : PolyVec n) : Access ε (SplitVec n) :=
  splitWith powerParts v

/- Split every coefficient by buckets. -/
def splitBuckets
    (halfWidth : Int)
    (v : PolyVec n) : Access ε (SplitVec n) :=
  splitWith (bucketParts halfWidth) v

/- The bucket of a residue, corrected by a hint. -/
def restore
    (halfWidth a : Int)
    (hint : Bool) : Access ε Int := do
  let b ← expect (Rounding.Buckets.ofHalfWidth? halfWidth)
  let parts ← bucketParts halfWidth a
  if hint then
    assuming
      (Word.Fits32 (parts.high - 1)
        ∧ Word.Fits32 (parts.high + 1))
      (.ok (b.neighbour parts))
  else
    return parts.high

/- The buckets of the coefficients, corrected by hints. -/
def applyHints
    (halfWidth : Int)
    (h : Hints n)
    (v : PolyVec n) : Access ε (PolyVec n) :=
  tabulate fun i : Fin n =>
    tabulate fun k : Fin degree =>
      restore halfWidth v[i][k] h[i][k]

------------------------------------------------------------
-- Operations in Their Ranges
------------------------------------------------------------

/- The outcome of a network is the polynomial it leaves. -/
theorem inPlace_runs
    {network : Poly → Access ε Network.State}
    {p : Poly}
    {s : Network.State}
    {r : Outcome ε Poly}
    (h : Entries.Within (Field.q - 1) p)
    (hNetwork : Runs (network p) (.ok s))
    (hSame : r = .ok s.values) :
    Runs (inPlace network p) r := by
  rw [hSame]
  refine (runs_assuming h _).ok_bind ?_
  exact hNetwork.ok_bind (runs_pure _)

/- Every index and every word of the network is in bounds. -/
theorem transformPoly_runs
    {p : Poly}
    (h : Entries.Within (Field.q - 1) p) :
    Runs (transformPoly p : Access ε Poly) p.transform := by
  rcases Network.forward_runs (ε := ε) h with ⟨_, hRun, hSame⟩
  exact inPlace_runs h hRun hSame

/- So is every one of the inverse network. -/
theorem inverseTransformPoly_runs
    {p : Poly}
    (h : Entries.Within (Field.q - 1) p) :
    Runs (inverseTransformPoly p : Access ε Poly)
      p.inverseTransform := by
  rcases Network.backward_runs (ε := ε) h with ⟨_, hRun, hSame⟩
  exact inPlace_runs h hRun hSame

/- All polynomials of a vector are transformed in bounds. -/
theorem transform_runs
    {v : PolyVec n}
    (h : v.Within (Field.q - 1)) :
    Runs (transform v : Access ε (PolyVec n)) v.transform :=
  runs_tabulate fun i => transformPoly_runs (h i)

/- All of them are transformed back in bounds. -/
theorem inverseTransform_runs
    {v : PolyVec n}
    (h : v.Within (Field.q - 1)) :
    Runs (inverseTransform v : Access ε (PolyVec n))
      v.inverseTransform :=
  runs_tabulate fun i => inverseTransformPoly_runs (h i)

/- Only words above `-q` are lifted. -/
theorem liftNegative_runs
    {v : PolyVec n}
    (h : v.Within (Field.q - 1)) :
    Runs (liftNegative v : Access ε (PolyVec n))
      (.ok v.liftNegative) :=
  runs_assuming h _

/- High parts have room for the bits that were dropped. -/
theorem shiftLeft_runs
    {v : PolyVec n}
    (h : ∀ i : Fin n, Packing.FitsWidth highPartBits v[i]) :
    Runs
      (shiftLeft v Rounding.droppedBits : Access ε (PolyVec n))
      (v.shiftLeft Rounding.droppedBits) := by
  refine runs_tabulate fun i => runs_assuming (fun k => ?_) _
  have hk := Encoding.within_shifted (h i) k
  unfold Word.Within Field.q at hk
  unfold Word.Fits32
  omega

/- Only the least word has no positive counterpart. -/
theorem exceedsNorm_runs
    {v : PolyVec n}
    (h : v.Within 2147483647)
    (bound : Int) :
    Runs (exceedsNorm v bound : Access ε Bool)
      (.ok (v.exceedsNorm bound)) :=
  runs_assuming h _

/- The high part of a residue is far from the word size. -/
theorem powerParts_runs
    {a : Int}
    (h : 0 ≤ a ∧ a < Field.q) :
    Runs (powerParts a : Access ε Rounding.Parts)
      (Rounding.splitPowerOfTwo a) := by
  rcases Rounding.splitPowerOfTwo_returns (ε := ε) h.1 h.2 with
    ⟨parts, hOk, hParts⟩
  have hFits : Word.Fits32 (parts.high * 8192) := by
    unfold Word.Fits32
    omega
  rw [hOk]
  exact ((runs_assuming h _).congr hOk).ok_bind
    (runs_assuming hFits _)

/- The width of every division is known. -/
theorem ofHalfWidth?_halfWidth
    (b : Rounding.Buckets) :
    Rounding.Buckets.ofHalfWidth? b.halfWidth = some b := by
  cases b <;> rfl

/- A residue is split in every division. -/
theorem bucketParts_runs
    (b : Rounding.Buckets)
    {a : Int}
    (h : 0 ≤ a ∧ a < Field.q) :
    Runs (bucketParts b.halfWidth a : Access ε Rounding.Parts)
      (b.split a) :=
  (runs_expect (ofHalfWidth?_halfWidth b)).ok_bind
    (runs_assuming h _)

/- A vector is split when each of its coefficients is. -/
theorem splitWith_runs
    {split : Int → Access ε Rounding.Parts}
    {split' : Int → Outcome ε Rounding.Parts}
    {v : PolyVec n}
    (h :
      ∀ (i : Fin n) (k : Fin degree),
        Runs (split v[i][k]) (split' v[i][k])) :
    Runs (splitWith split v) (v.splitWith split') :=
  (runs_tabulate fun i => runs_tabulate (h i)).bind
    fun _ _ => runs_pure _

/- Canonical vectors are split at their 13 low bits. -/
theorem splitPowerOfTwo_runs
    {v : PolyVec n}
    (h : v.Canonical) :
    Runs (splitPowerOfTwo v : Access ε (SplitVec n))
      v.splitPowerOfTwo :=
  splitWith_runs fun i k => powerParts_runs (h i k)

/- Canonical vectors are split by buckets. -/
theorem splitBuckets_runs
    (b : Rounding.Buckets)
    {v : PolyVec n}
    (h : v.Canonical) :
    Runs (splitBuckets b.halfWidth v : Access ε (SplitVec n))
      (v.splitBuckets b) :=
  splitWith_runs fun i k => bucketParts_runs b (h i k)

/- The neighbours of a bucket have small numbers. -/
theorem restore_runs
    (b : Rounding.Buckets)
    {a : Int}
    (h : 0 ≤ a ∧ a < Field.q)
    (hint : Bool) :
    Runs (restore b.halfWidth a hint : Access ε Int)
      (b.restore a hint) := by
  refine (runs_expect (ofHalfWidth?_halfWidth b)).ok_bind ?_
  refine (bucketParts_runs b h).bind ?_
  intro parts hOk
  rw [b.split_eq_ok h.1 h.2] at hOk
  cases hOk
  cases hint with
  | false => exact runs_pure _
  | true =>
      refine runs_assuming ?_ _
      have hIn := (b.inBucket_standardParts h.1 h.2).1
      have hCount : b.count ≤ 44 := by
        cases b <;> decide
      rcases hIn with ⟨hLower, hUpper, _⟩
      unfold Word.Fits32
      omega

/- Hints are applied to canonical vectors. -/
theorem applyHints_runs
    (b : Rounding.Buckets)
    (h : Hints n)
    {v : PolyVec n}
    (hv : v.Canonical) :
    Runs (applyHints b.halfWidth h v : Access ε (PolyVec n))
      (h.apply b v) :=
  runs_tabulate fun i =>
    runs_tabulate fun k => restore_runs b (hv i k) h[i][k]

------------------------------------------------------------
-- Products in Their Ranges
------------------------------------------------------------

variable {β : Type}

/-
  A sum of products is reduced to words below `q`, and the
  inverse transform leaves words of half that size.
-/
theorem reduced_runs
    {bound : Int}
    {w : PolyVec n}
    {a : Fin n → Negacyclic.Element Residue}
    {f : PolyVec n → Access ε β}
    {g : PolyVec n → Outcome ε β}
    (hw : PolyVec.IsProduct bound w a)
    (hBound : bound ≤ 2143289343)
    (hNext :
      ∀ plain : PolyVec n,
        plain.Within 4211198 → Runs (f plain) (g plain)) :
    Runs
      (do
        let reduced ← ofOutcome w.reduce
        let plain ← inverseTransform reduced
        f plain)
      (do
        let reduced ← w.reduce
        let plain ← reduced.inverseTransform
        g plain) := by
  refine (runs_ofOutcome _).bind_returns
    (PolyVec.reduce_returns_isProduct hw hBound) ?_
  intro reduced hReduced
  refine (inverseTransform_runs fun i =>
    (hReduced i).1).bind_returns
    (PolyVec.inverseTransform_of_isProduct hReduced) ?_
  exact fun plain hPlain => hNext plain hPlain.1

/- The product of a matrix and a vector of words below `q`. -/
theorem matrixProduct_runs
    {rows columns : Nat}
    {a : Matrix rows columns}
    {v : PolyVec columns}
    {f : PolyVec rows → Access ε β}
    {g : PolyVec rows → Outcome ε β}
    (ha : a.Canonical)
    (hv : v.Within (Field.q - 1))
    (hSize : columns ≤ 8)
    (hNext :
      ∀ plain : PolyVec rows,
        plain.Within 4211198 → Runs (f plain) (g plain)) :
    Runs
      (do
        let transformed ← transform v
        let product ← ofOutcome (a.apply transformed)
        let reduced ← ofOutcome product.reduce
        let plain ← inverseTransform reduced
        f plain)
      (do
        let transformed ← v.transform
        let product ← a.apply transformed
        let reduced ← product.reduce
        let plain ← reduced.inverseTransform
        g plain) := by
  refine (transform_runs hv).bind_returns
    (PolyVec.transform_returns hv) ?_
  intro transformed hTransformed
  refine (runs_ofOutcome _).bind_returns
    (Matrix.apply_returns ha hTransformed hSize) ?_
  intro product hProduct
  exact reduced_runs hProduct (by decide) hNext

end Guarded

end LatticeSignature
