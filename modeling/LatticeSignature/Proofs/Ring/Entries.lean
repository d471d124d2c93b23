import LatticeSignature.Proofs.Field.Reduction
import Mathlib.Algebra.Group.Action.Pi

/-
  Operations on all entries of a vector of words: what they
  return, in which range, and with which residues.

  Main declarations:
    * `Entries.Within`
    * `Entries.residues`
    * `Entries.add_returns`, `Entries.sub_returns`
    * `Entries.reduce_returns`, `Entries.canonical_eq_ok`
    * `Entries.residues_liftNegative`
-/

------------------------------------------------------------
-- Ranges and Residues
------------------------------------------------------------

namespace LatticeSignature

namespace Entries

open Outcome

variable {ε : Type}
variable {n : Nat}

/- All entries have at most the given magnitude. -/
def Within
    (bound : Int)
    (v : Vector Int n) : Prop :=
  ∀ i : Fin n, Word.Within bound v[i]

instance
    (bound : Int)
    (v : Vector Int n) :
    Decidable (Within bound v) := by
  unfold Within
  infer_instance

theorem Within.mono
    {bound bound' : Int}
    {v : Vector Int n}
    (h : Within bound v)
    (hLe : bound ≤ bound') :
    Within bound' v :=
  fun i => (h i).mono hLe

/- The residues of the entries. -/
def residues
    (v : Vector Int n) : Fin n → Residue :=
  fun i => (v[i] : Residue)

/- The entries of a vector as a function. -/
def toFun
    (v : Vector Int n) : Fin n → Int :=
  fun i => v[i]

/- Vectors of vectors with the same entries are the same. -/
theorem ext_rows
    {α : Type}
    {m : Nat}
    {v w : Vector (Vector α m) n}
    (h :
      ∀ (i : Fin n) (k : Fin m), v[i][k] = w[i][k]) :
    v = w := by
  apply Vector.ext
  intro i hi
  apply Vector.ext
  intro k hk
  exact h ⟨i, hi⟩ ⟨k, hk⟩

------------------------------------------------------------
-- Sums and Products
------------------------------------------------------------

/- Sums of entries, when they stay in their words. -/
theorem add_returns
    {a b : Int}
    {v w : Vector Int n}
    (hv : Within a v)
    (hw : Within b w)
    (hBound : a + b ≤ 2147483647) :
    Returns
      (zipEntries Word.add32 v w : Outcome ε (Vector Int n))
      fun u =>
        toFun u = toFun v + toFun w
          ∧ Within (a + b) u
          ∧ residues u = residues v + residues w := by
  have hEntry :
      ∀ i : Fin n,
        Returns (Word.add32 v[i] w[i] : Outcome ε Int)
          fun x => x = v[i] + w[i] ∧ Word.Within (a + b) x := by
    intro i
    have hvi := hv i
    have hwi := hw i
    refine ⟨v[i] + w[i], Word.add32_eq_ok ?_, rfl, ?_⟩ <;>
    · unfold Word.Within at *
      omega
  refine (returns_zipEntries hEntry).mono ?_
  intro u h
  refine ⟨funext fun i => (h i).1, fun i => (h i).2, ?_⟩
  funext i
  simp only [residues, (h i).1, Int.cast_add, Pi.add_apply]

/- Differences of entries, when they stay in their words. -/
theorem sub_returns
    {a b : Int}
    {v w : Vector Int n}
    (hv : Within a v)
    (hw : Within b w)
    (hBound : a + b ≤ 2147483647) :
    Returns
      (zipEntries Word.sub32 v w : Outcome ε (Vector Int n))
      fun u =>
        toFun u = toFun v - toFun w
          ∧ Within (a + b) u
          ∧ residues u = residues v - residues w := by
  have hEntry :
      ∀ i : Fin n,
        Returns (Word.sub32 v[i] w[i] : Outcome ε Int)
          fun x => x = v[i] - w[i] ∧ Word.Within (a + b) x := by
    intro i
    have hvi := hv i
    have hwi := hw i
    refine ⟨v[i] - w[i], Word.sub32_eq_ok ?_, rfl, ?_⟩ <;>
    · unfold Word.Within at *
      omega
  refine (returns_zipEntries hEntry).mono ?_
  intro u h
  refine ⟨funext fun i => (h i).1, fun i => (h i).2, ?_⟩
  funext i
  simp only [residues, (h i).1, Int.cast_sub, Pi.sub_apply]

/- Montgomery products of all entries with one word. -/
theorem montgomeryMul_returns
    {a bound : Int}
    {x : Int}
    {v : Vector Int n}
    (hx : Word.Within a x)
    (hv : Within bound v)
    (hBound : a * bound < 17996808470921216) :
    Returns
      (mapEntries (Field.montgomeryMul x) v
        : Outcome ε (Vector Int n))
      fun w =>
        Within (Field.q - 1) w
          ∧ residues w =
            (Residue.factorInverse * x) • residues v := by
  have hEntry :
      ∀ i : Fin n,
        Returns (Field.montgomeryMul x v[i] : Outcome ε Int)
          fun r =>
            Word.Within (Field.q - 1) r
              ∧ (r : Residue) =
                Residue.factorInverse * (x * v[i]) :=
    fun i =>
      Field.montgomeryMul_returns
        (Word.within_mul hx (hv i)) hBound
  refine (returns_mapEntries hEntry).mono ?_
  intro w h
  refine ⟨fun i => (h i).1, funext fun i => ?_⟩
  simp only [residues, (h i).2, Pi.smul_apply, smul_eq_mul,
    mul_assoc]

------------------------------------------------------------
-- Representatives
------------------------------------------------------------

/- The small representatives of all entries. -/
theorem reduce_returns
    {v : Vector Int n}
    (h : Within 2143289343 v) :
    Returns
      (mapEntries Field.reduce v : Outcome ε (Vector Int n))
      fun w =>
        Within 6283009 w ∧ residues w = residues v := by
  have hEntry :
      ∀ i : Fin n,
        Returns (Field.reduce v[i] : Outcome ε Int) fun r =>
          Word.Within 6283009 r
            ∧ ∃ t, Word.Within 256 t
              ∧ r = v[i] - t * Field.q :=
    fun i => Field.reduce_returns (h i)
  refine (returns_mapEntries hEntry).mono ?_
  intro w hw
  refine ⟨fun i => (hw i).1, funext fun i => ?_⟩
  rcases hw i with ⟨_, t, _, hEq⟩
  have hCast := Residue.intCast_add_q_mul v[i] (-t)
  have hSame : w[i] = v[i] + Field.q * (-t) := by
    rw [hEq]
    ring
  rw [← hSame] at hCast
  exact hCast

/- Small entries are their own representatives. -/
theorem reduce_eq_self
    {v : Vector Int n}
    (h : Within 4194303 v) :
    (mapEntries Field.reduce v : Outcome ε (Vector Int n)) =
      .ok v := by
  rw [mapEntries_eq_ok_iff]
  exact fun i => Field.reduce_eq_self (h i)

/- The canonical representatives of all entries. -/
theorem canonical_eq_ok
    {v : Vector Int n}
    (hFits : ∀ i : Fin n, Word.Fits32 v[i])
    (hUpper : ∀ i : Fin n, v[i] ≤ 2143289343) :
    (mapEntries Field.canonical v : Outcome ε (Vector Int n)) =
      .ok (v.map (· % Field.q)) := by
  rw [mapEntries_eq_ok_iff]
  intro i
  rw [Field.canonical_eq_ok (hFits i) (hUpper i), getElem_index,
    getElem_index, Vector.getElem_map]

theorem residues_liftNegative
    (v : Vector Int n) :
    residues (v.map Field.liftNegative) = residues v := by
  funext i
  simp only [residues, getElem_index, Vector.getElem_map,
    Field.intCast_liftNegative]

/- Entries of least representatives. -/
def Canonical
    (v : Vector Int n) : Prop :=
  ∀ i : Fin n, 0 ≤ v[i] ∧ v[i] < Field.q

theorem canonical_liftNegative
    {v : Vector Int n}
    (h : Within (Field.q - 1) v) :
    Canonical (v.map Field.liftNegative) := by
  intro i
  have hi := Field.liftNegative_range (h i)
  simpa using hi

theorem Canonical.within
    {v : Vector Int n}
    (h : Canonical v) :
    Within (Field.q - 1) v := by
  intro i
  rcases h i with ⟨hLower, hUpper⟩
  unfold Word.Within Field.q at *
  omega

/- Least representatives are the values of their residues. -/
theorem Canonical.val_residues
    {v : Vector Int n}
    (h : Canonical v)
    (i : Fin n) :
    ((residues v i).val : Int) = v[i] :=
  Field.val_intCast_of_range (h i).1 (h i).2

end Entries

end LatticeSignature
