import LatticeSignature.Proofs.Encoding.Coefficients
import LatticeSignature.Proofs.Ring.Products
import LatticeSignature.Proofs.Stream.Separation
import LatticeSignature.Sampling.Expansion

/-
  What samplers yield is in range, and samplers fail in no
  other way than by running out of candidates.

  Main declarations:
    * `Sampling.collectVector_yields`
    * `Sampling.uniform_yields`, `Sampling.small_yields`
    * `Sampling.mask_returns`
    * `Sampling.matrix_yields`
    * `Sampling.secrets_yields`
    * `Sampling.masks_returns`
-/

------------------------------------------------------------
-- Rejection
------------------------------------------------------------

namespace LatticeSignature

namespace Sampling

open Outcome

variable {ε σ β : Type}

/- What holds of every candidate holds of what is accepted. -/
theorem forall_accepted
    {P : β → Prop}
    {draw : σ → List β × σ}
    (hDraw : ∀ s, ∀ x ∈ (draw s).1, P x)
    (draws : Nat)
    (s : σ) :
    ∀ x ∈ accepted draw draws s, P x := by
  induction draws generalizing s with
  | zero =>
      intro x hx
      cases hx
  | succ draws ih =>
      intro x hx
      rw [accepted, List.mem_append] at hx
      rcases hx with hFirst | hRest
      · exact hDraw s x hFirst
      · exact ih _ x hRest

/- All that is collected has been accepted. -/
theorem collect_yields
    {P : β → Prop}
    {draw : σ → List β × σ}
    (hDraw : ∀ s, ∀ x ∈ (draw s).1, P x)
    (draws wanted : Nat)
    (s : σ) :
    Yields (collect draw draws wanted s : Outcome ε (List β))
      fun values => ∀ x ∈ values, P x := by
  rw [collect_eq]
  split
  · refine Or.inl ⟨_, rfl, ?_⟩
    intro x hx
    exact forall_accepted hDraw draws s x (List.mem_of_mem_take hx)
  · exact Or.inr ⟨_, rfl, rfl⟩

/- So have the entries of a vector. -/
theorem collectVector_yields
    {P : β → Prop}
    {draw : σ → List β × σ}
    (hDraw : ∀ s, ∀ x ∈ (draw s).1, P x)
    (draws wanted : Nat)
    (s : σ) :
    Yields
      (collectVector draw draws wanted s
        : Outcome ε (Vector β wanted))
      fun v => ∀ i : Fin wanted, P v[i] := by
  have hCollect :=
    collect_yields (ε := ε) hDraw draws wanted s
  unfold collectVector
  split
  · rename_i values hOk
    refine Or.inl ⟨_, rfl, ?_⟩
    intro i
    exact hCollect.of_eq_ok hOk _ (List.getElem_mem _)
  · rename_i stop hStop
    rcases hCollect with ⟨values, hOk, _⟩ | ⟨s', hs', hSpent⟩
    · rw [hStop] at hOk
      cases hOk
    · rw [hStop] at hs'
      injection hs' with hEq
      exact Or.inr ⟨stop, rfl, hEq.trans hSpent⟩

------------------------------------------------------------
-- Polynomials
------------------------------------------------------------

variable [ByteSource σ]

/- Uniform polynomials have least representatives. -/
theorem uniform_yields
    (s : σ) :
    Yields (uniform s : Outcome ε Poly) Entries.Canonical := by
  refine
    collectVector_yields (P := fun x => 0 ≤ x ∧ x < Field.q)
      ?_ _ _ _
  intro s x hx
  unfold drawResidue at hx
  dsimp only at hx
  split at hx
  · rename_i hLt
    rw [List.mem_singleton.1 hx]
    exact ⟨by omega, hLt⟩
  · cases hx

/- Four bits stand for a small number, if for any. -/
theorem smallOfNibble_range
    {eta nibble : Nat}
    {x : Int}
    (h : smallOfNibble eta nibble = some x) :
    Word.Within eta x := by
  unfold smallOfNibble at h
  unfold Word.Within
  split at h
  · rename_i hTwo
    injection h with hEq
    omega
  · split at h
    · rename_i hFour
      injection h with hEq
      omega
    · cases h

/- Small polynomials have the range of secrets. -/
theorem small_yields
    (eta : Nat)
    (s : σ) :
    Yields (small eta s : Outcome ε Poly)
      (Entries.Within eta) := by
  apply collectVector_yields
  intro s x hx
  unfold drawSmall at hx
  rcases List.mem_filterMap.1 hx with ⟨nibble, _, hSome⟩
  exact smallOfNibble_range hSome

/-
  A mask is never refused, as it is sampled without rejection.
-/
theorem mask_returns
    (p : ParameterSet)
    (s : σ) :
    Returns (mask p s)
      (Encoding.HalfOpen (-p.gamma1) p.gamma1) := by
  have hSize :
      (ByteSource.read p.responsePolyBytes s).1.length =
        packedBytes p.responseBits :=
    ByteSource.length_read _ _
  have hUnpack :=
    Encoding.unpackOffset_returns
      (Encoding.isWidth_responseBits p)
      (Encoding.gamma1_le_two_pow p) hSize
  rw [Encoding.gamma1_sub_two_pow] at hUnpack
  exact hUnpack.mono fun _ h => h.1

/- Every reader accepts seeds of 32 bytes or more. -/
theorem seededReader_returns
    (kind : StreamKind)
    {seed : Bytes}
    (nonce : UInt16)
    (hSeed : 32 ≤ seed.length) :
    Returns (seededReader kind seed nonce) fun _ => True := by
  rcases SeededStream.start_returns kind nonce hSeed with
    ⟨stream, hStart, _⟩
  rw [seededReader, hStart]
  exact ⟨_, rfl, trivial⟩

/-
  A seed of 32 bytes is long enough for all kinds of streams.
-/
theorem seededUniform_yields
    (kind : StreamKind)
    {seed : Bytes}
    (nonce : UInt16)
    (hSeed : 32 ≤ seed.length) :
    Yields (seededUniform kind seed nonce) Entries.Canonical :=
  (seededReader_returns kind nonce hSeed).ends.bind
    fun reader _ => uniform_yields reader

/- The small polynomial of a seed. -/
theorem seededSmall_yields
    (eta : Nat)
    (kind : StreamKind)
    {seed : Bytes}
    (nonce : UInt16)
    (hSeed : 32 ≤ seed.length) :
    Yields (seededSmall eta kind seed nonce)
      (Entries.Within eta) :=
  (seededReader_returns kind nonce hSeed).ends.bind
    fun reader _ => small_yields eta reader

/- The mask of a seed, which needs no luck. -/
theorem seededMask_returns
    (p : ParameterSet)
    (kind : StreamKind)
    {seed : Bytes}
    (nonce : UInt16)
    (hSeed : 32 ≤ seed.length) :
    Returns (seededMask p kind seed nonce)
      (Encoding.HalfOpen (-p.gamma1) p.gamma1) :=
  (seededReader_returns kind nonce hSeed).bind
    fun reader _ => mask_returns p reader

------------------------------------------------------------
-- Vectors and Matrices
------------------------------------------------------------

/- The matrix is made of transforms in canonical form. -/
theorem matrix_yields
    (p : ParameterSet)
    (b : Backend)
    (rho : Seed) :
    Yields (matrix p b rho) Matrix.Canonical :=
  ends_tabulate fun _ =>
    ends_tabulate fun _ =>
      seededUniform_yields _ _ (by simp)

/- Both secret vectors are small. -/
theorem secrets_yields
    (p : ParameterSet)
    (kind : StreamKind)
    {seed : Bytes}
    (hSeed : 32 ≤ seed.length) :
    Yields (secrets p kind seed) fun s =>
      (∀ i : Fin p.columns, Entries.Within p.eta s.s1[i])
        ∧ ∀ i : Fin p.rows, Entries.Within p.eta s.s2[i] := by
  refine Ends.bind
    (ends_tabulate fun _ => seededSmall_yields _ _ _ hSeed) ?_
  intro s1 h1
  refine Ends.bind
    (ends_tabulate fun _ => seededSmall_yields _ _ _ hSeed) ?_
  intro s2 h2
  exact Or.inl ⟨_, rfl, h1, h2⟩

/-
  Each mask belongs to its own nonce and has the range of
  masks.
-/
theorem masks_returns
    (p : ParameterSet)
    (kind : StreamKind)
    {seed : Bytes}
    (kappa : UInt16)
    (hSeed : 32 ≤ seed.length) :
    Returns (masks p kind seed kappa) fun y =>
      ∀ i : Fin p.columns,
        seededMask p kind seed (maskNonce p kappa i.val) =
            .ok y[i]
          ∧ Encoding.HalfOpen (-p.gamma1) p.gamma1 y[i] :=
  returns_tabulate fun _ =>
    (seededMask_returns p kind _ hSeed).with_eq

/- Nonces count through all mask polynomials, modulo `2^16`. -/
theorem maskNonce_ofNat
    (p : ParameterSet)
    (n i : Nat) :
    maskNonce p (UInt16.ofNat n) i =
      UInt16.ofNat (p.columns * n + i) := by
  unfold maskNonce
  rw [UInt16.ofNat_add, UInt16.ofNat_mul]

end Sampling

end LatticeSignature
