import LatticeSignature.Proofs.Encoding.Keys
import LatticeSignature.Proofs.Rounding.Vectors
import LatticeSignature.Proofs.Scheme.Products
import LatticeSignature.Scheme.KeyGeneration

/-
  Key generation makes keys that belong together, and the
  public key is found again from the secret key.

  Main declarations:
    * `Scheme.publicVector_returns`
    * `Scheme.publicVector_yields`
    * `Scheme.splitPublicVector_returns`
    * `Scheme.Generated`
    * `Scheme.keyPairOfSeed_yields`
    * `Scheme.Generated.publicKeyOfSecret_eq_ok`
    * `Scheme.Generated.parts`
    * `Scheme.Consistent`
    * `Scheme.generate_consistent`
-/

------------------------------------------------------------
-- Public Vectors
------------------------------------------------------------

namespace LatticeSignature

namespace Scheme

open Outcome Negacyclic

/-
  The public vector is in least representatives, because the
  inverse transform leaves more room than a secret needs.
-/
theorem publicVector_returns
    {p : ParameterSet}
    {b : Backend}
    {rho : Seed}
    {matrix : Matrix p.rows p.columns}
    {s1 : PolyVec p.columns}
    {s2 : PolyVec p.rows}
    (hMatrix : Sampling.matrix p b rho = .ok matrix)
    (h1 : s1.Within p.eta)
    (h2 : s2.Within p.eta) :
    Returns (publicVector p b rho s1 s2) fun t =>
      t.Canonical
        ∧ t.elements =
          Negacyclic.apply matrix.elements s1.elements
            + s2.elements := by
  have hEta := p.eta_le
  have hSmall : s1.Within (Field.q - 1) := by
    refine h1.mono (hEta.trans ?_)
    decide
  have hCanonical :=
    (Sampling.matrix_yields p b rho).of_eq_ok hMatrix
  rw [publicVector, hMatrix, ok_bind, Matrix.multiply_bind]
  refine (Matrix.multiply_elements hCanonical hSmall
    p.columns_le).bind ?_
  rintro plain ⟨hRange, hElements⟩
  refine (PolyVec.add_returns hRange h2 (by omega)).bind ?_
  rintro sum ⟨_, hSumRange, hSum⟩
  refine returns_ok ⟨?_, ?_⟩
  · apply PolyVec.canonical_liftNegative
    refine hSumRange.mono ?_
    unfold Field.q
    omega
  · rw [PolyVec.elements_liftNegative, hSum, hElements]

theorem publicVector_yields
    {p : ParameterSet}
    (b : Backend)
    (rho : Seed)
    {s1 : PolyVec p.columns}
    {s2 : PolyVec p.rows}
    (h1 : s1.Within p.eta)
    (h2 : s2.Within p.eta) :
    Yields (publicVector p b rho s1 s2) fun t =>
      ∃ matrix,
        Sampling.matrix p b rho = .ok matrix
          ∧ matrix.Canonical
          ∧ t.Canonical
          ∧ t.elements =
            Negacyclic.apply matrix.elements s1.elements
              + s2.elements := by
  rcases Sampling.matrix_yields p b rho with
    ⟨matrix, hMatrix, hRange⟩ | ⟨stop, hStop, hSpent⟩
  · refine (publicVector_returns hMatrix h1 h2).ends.mono ?_
    intro t ht
    exact ⟨matrix, hMatrix, hRange, ht⟩
  · exact Ends.bind_of_error hStop hSpent

------------------------------------------------------------
-- Generated Keys
------------------------------------------------------------

/-
  The keys hold the two parts of the public vector of the
  secret vectors.
-/
structure Generated
    {p : ParameterSet}
    (b : Backend)
    (keys : KeyPairBytes)
    (key : SecretParts p)
    (t high : PolyVec p.rows) : Prop where
  inRange : key.InRange
  secretKey :
    Encoding.unpackSecretKey p keys.secretKey = .ok key
  vector : publicVector p b key.rho key.s1 key.s2 = .ok t
  split : t.splitPowerOfTwo =
    (.ok ⟨high, key.t0⟩ : Outcome SchemeError (SplitVec p.rows))
  packed :
    Encoding.packPublicKey p ⟨key.rho, high⟩ =
      .ok keys.publicKey
  publicKey :
    Encoding.unpackPublicKey p keys.publicKey =
      .ok ⟨key.rho, high⟩
  tr : keyDigest keys.publicKey = key.tr

theorem length_secretSeed
    (p : ParameterSet)
    (seed : Seed) :
    (expandSeed p seed).secretSeed.length = 64 := by
  apply Encoding.length_part
  simp

/- The two parts of a public vector fit into the keys. -/
theorem splitPublicVector_returns
    {p : ParameterSet}
    {t : PolyVec p.rows}
    (h : t.Canonical) :
    Returns
      (t.splitPowerOfTwo : Outcome SchemeError (SplitVec p.rows))
      fun split =>
        (∀ rho : Seed,
          PublicParts.InRange (p := p) ⟨rho, split.high⟩)
          ∧ ∀ i : Fin p.rows,
            Encoding.HalfOpen (-4096) 4096 split.low[i] := by
  refine (PolyVec.splitPowerOfTwo_returns h).mono ?_
  intro split hParts
  exact
    ⟨fun _ i k => ⟨(hParts i k).2.1, (hParts i k).2.2.1⟩,
      fun i k => (hParts i k).2.2.2⟩

/- Key generation fails only when a sampler is exhausted. -/
theorem keyPairOfSeed_yields
    (p : ParameterSet)
    (b : Backend)
    (seed : Seed) :
    Yields (keyPairOfSeed p b seed) fun keys =>
      ∃ (key : SecretParts p) (t high : PolyVec p.rows),
        Generated b keys key t high := by
  have hSeed : 32 ≤ (expandSeed p seed).secretSeed.length := by
    rw [length_secretSeed]
    omega
  refine (Sampling.secrets_yields p b.secretStream hSeed).bind ?_
  rintro secrets ⟨h1, h2⟩
  refine (publicVector_yields b (expandSeed p seed).rho
    h1 h2).with_eq.bind ?_
  rintro t ⟨hVector, matrix, _, _, hCanonical, _⟩
  refine (splitPublicVector_returns
    hCanonical).with_eq.ends.bind ?_
  rintro split ⟨hSplit, hHigh, hLow⟩
  refine (Encoding.packPublicKey_returns
    (hHigh _)).with_eq.ends.bind ?_
  rintro publicKey ⟨hPublic, _, hUnpackPublic⟩
  let key : SecretParts p :=
    { rho := (expandSeed p seed).rho
      key := (expandSeed p seed).key
      tr := keyDigest publicKey
      s1 := secrets.s1
      s2 := secrets.s2
      t0 := split.low }
  have hRange : key.InRange := ⟨h1, h2, hLow⟩
  refine (Encoding.packSecretKey_returns hRange).ends.bind ?_
  rintro secretKey ⟨_, hUnpackSecret⟩
  exact Or.inl ⟨⟨publicKey, secretKey⟩, rfl, key, t, split.high,
    hRange, hUnpackSecret, hVector, hSplit, hPublic,
    hUnpackPublic, rfl⟩

/- The public key is computed again from the secret key. -/
theorem Generated.publicKeyOfSecret_eq_ok
    {p : ParameterSet}
    {b : Backend}
    {keys : KeyPairBytes}
    {key : SecretParts p}
    {t high : PolyVec p.rows}
    (h : Generated b keys key t high) :
    publicKeyOfSecret p b keys.secretKey =
      .ok keys.publicKey := by
  rw [publicKeyOfSecret, h.secretKey, ok_bind, h.vector, ok_bind,
    h.split, ok_bind, h.packed, ok_bind,
    require_bind (beq_iff_eq.2 h.tr)]
  rfl

/-
  The two parts make up the least representatives of
  `A * s1 + s2`.
-/
theorem Generated.parts
    {p : ParameterSet}
    {b : Backend}
    {keys : KeyPairBytes}
    {key : SecretParts p}
    {t high : PolyVec p.rows}
    (h : Generated b keys key t high) :
    ∃ matrix,
      Sampling.matrix p b key.rho = .ok matrix
        ∧ matrix.Canonical
        ∧ ∀ (i : Fin p.rows) (k : Fin degree),
          high[i][k] * 2 ^ 13 + key.t0[i][k] =
            ((Negacyclic.apply matrix.elements key.s1.elements
              + key.s2.elements) i k).val := by
  rcases (publicVector_yields b key.rho h.inRange.s1
      h.inRange.s2).of_eq_ok h.vector with
    ⟨matrix, hMatrix, hMatrixRange, hCanonical, hSum⟩
  have hParts :=
    (PolyVec.splitPowerOfTwo_returns
      hCanonical).of_eq_ok h.split
  refine ⟨matrix, hMatrix, hMatrixRange, ?_⟩
  intro i k
  rw [← hSum]
  exact (hParts i k).1.trans ((hCanonical i).val_residues k).symm

------------------------------------------------------------
-- Consistency
------------------------------------------------------------

/-
  What a public key and a secret key have in common.  The
  products in the public vector are those of the ring, and its
  coefficients are taken in `[0, q)`.
-/
structure Consistent
    {p : ParameterSet}
    (b : Backend)
    (keys : KeyPairBytes)
    (parts : PublicParts p)
    (key : SecretParts p)
    (a : Matrix p.rows p.columns) : Prop where
  publicKey :
    Encoding.unpackPublicKey p keys.publicKey = .ok parts
  secretKey :
    Encoding.unpackSecretKey p keys.secretKey = .ok key
  rho : parts.rho = key.rho
  s1 :
    ∀ (i : Fin p.columns) (k : Fin degree),
      -(p.eta : Int) ≤ key.s1[i][k] ∧ key.s1[i][k] ≤ p.eta
  s2 :
    ∀ (i : Fin p.rows) (k : Fin degree),
      -(p.eta : Int) ≤ key.s2[i][k] ∧ key.s2[i][k] ≤ p.eta
  t1 :
    ∀ (i : Fin p.rows) (k : Fin degree),
      0 ≤ parts.t1[i][k] ∧ parts.t1[i][k] < 2 ^ 10
  t0 :
    ∀ (i : Fin p.rows) (k : Fin degree),
      -2 ^ 12 < key.t0[i][k] ∧ key.t0[i][k] ≤ 2 ^ 12
  matrix : Sampling.matrix p b key.rho = .ok a
  vector :
    ∀ (i : Fin p.rows) (k : Fin degree),
      parts.t1[i][k] * 2 ^ 13 + key.t0[i][k] =
        ((Negacyclic.apply a.elements key.s1.elements
          + key.s2.elements) i k).val
  tr :
    key.tr.toList = Keccak.shake256 keys.publicKey 64
  derived :
    publicKeyOfSecret p b keys.secretKey = .ok keys.publicKey

theorem Generated.consistent
    {p : ParameterSet}
    {b : Backend}
    {keys : KeyPairBytes}
    {key : SecretParts p}
    {t high : PolyVec p.rows}
    (h : Generated b keys key t high) :
    ∃ matrix, Consistent b keys ⟨key.rho, high⟩ key matrix := by
  rcases h.parts with ⟨matrix, hMatrix, _, hVector⟩
  have hPublic :=
    (Encoding.unpackPublicKey_decides p
      keys.publicKey).of_eq_ok h.publicKey
  refine ⟨matrix, ?_⟩
  exact
    { publicKey := h.publicKey
      secretKey := h.secretKey
      rho := rfl
      s1 := h.inRange.s1
      s2 := h.inRange.s2
      t1 := hPublic.1
      t0 := h.inRange.t0
      matrix := hMatrix
      vector := hVector
      tr := by
        rw [← h.tr]
        rfl
      derived := h.publicKeyOfSecret_eq_ok }

/-
  Unless a sampler is exhausted, a seed leads to consistent
  keys.
-/
theorem generate_consistent
    (p : ParameterSet)
    (b : Backend)
    (seed : Seed) :
    Yields (generate p b seed).outcome fun keys =>
      ∃ (parts : PublicParts p) (key : SecretParts p)
        (matrix : Matrix p.rows p.columns),
        Consistent b keys parts key matrix := by
  refine (keyPairOfSeed_yields p b seed).mono ?_
  rintro keys ⟨key, t, high, hGenerated⟩
  rcases hGenerated.consistent with ⟨matrix, hConsistent⟩
  exact ⟨_, key, matrix, hConsistent⟩

end Scheme

end LatticeSignature
