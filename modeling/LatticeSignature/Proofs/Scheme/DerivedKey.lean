import LatticeSignature.Proofs.Scheme.KeyGeneration

/-
  The public key that is derived from a secret key.  The digest
  in the secret key ties its seed and its secret vectors to the
  public key.  The low parts in it are not compared with the
  ones that the secret vectors lead to, so a public key is
  derived from secret keys with any low parts.

  Main declarations:
    * `Scheme.derivedKey`, `Scheme.publicKeyOfSecret_eq_bind`
    * `Scheme.Derived`, `Scheme.Derived.unique`
    * `Scheme.derivedKey_returns`, `Scheme.derivedKey_eq_ok_iff`
    * `Scheme.publicKeyOfSecret_eq_ok_iff`
    * `Scheme.publicKeyOfSecret_ends`
    * `Scheme.LowPartsMatch`, `Scheme.Derived.lowPartsMatch_iff`
    * `Scheme.Derived.edited_returns`
    * `Scheme.Derived.exists_inconsistent`
    * `Scheme.keyPairOfSeed_inconsistent`
    * `Scheme.derivation_checks_digest_only`
-/

------------------------------------------------------------
-- Derivations
------------------------------------------------------------

namespace LatticeSignature

namespace Scheme

open Outcome Encoding

variable {p : ParameterSet}
variable {b : Backend}
variable {publicKey secretKey : Bytes}
variable {key : SecretParts p}
variable {a : Matrix p.rows p.columns}
variable {high low : PolyVec p.rows}

/- The public key that a seed and secret vectors lead to. -/
def derivedKey
    (b : Backend)
    (key : SecretParts p) : Outcome SchemeError Bytes := do
  let t ← publicVector p b key.rho key.s1 key.s2
  let split ← t.splitPowerOfTwo
  packPublicKey p ⟨key.rho, split.high⟩

/- The digest of a derived key is compared with the stored one. -/
def checkDigest
    (key : SecretParts p)
    (publicKey : Bytes) : Outcome SchemeError Bytes := do
  require
    (keyDigest publicKey == key.tr)
    (.invalidKey "stored tr does not match the public key")
  return publicKey

theorem publicKeyOfSecret_eq_bind
    (p : ParameterSet)
    (b : Backend)
    (secretKey : Bytes) :
    publicKeyOfSecret p b secretKey =
      unpackSecretKey p secretKey >>= fun key =>
        derivedKey b key >>= checkDigest key := by
  unfold publicKeyOfSecret derivedKey
  apply bind_congr
  intro key
  rw [bind_assoc]
  apply bind_congr
  intro t
  rw [bind_assoc]
  rfl

/-
  The public key holds the seed and the high parts of the
  public vector, in least representatives.  The low parts are
  those that the high parts leave.
-/
structure Derived
    (b : Backend)
    (publicKey : Bytes)
    (key : SecretParts p)
    (a : Matrix p.rows p.columns)
    (high low : PolyVec p.rows) : Prop where
  sampled : Sampling.matrix p b key.rho = .ok a
  unpacked :
    unpackPublicKey p publicKey = .ok ⟨key.rho, high⟩
  centred :
    ∀ (i : Fin p.rows) (k : Fin degree),
      -2 ^ 12 < low[i][k] ∧ low[i][k] ≤ 2 ^ 12
  vector :
    ∀ (i : Fin p.rows) (k : Fin degree),
      high[i][k] * 2 ^ 13 + low[i][k] =
        ((Negacyclic.apply a.elements key.s1.elements
          + key.s2.elements) i k).val

/- A number has one pair of parts. -/
theorem parts_unique
    {x y x' y' : Int}
    (hLow : -2 ^ 12 < y ∧ y ≤ 2 ^ 12)
    (hLow' : -2 ^ 12 < y' ∧ y' ≤ 2 ^ 12)
    (hSame : x * 2 ^ 13 + y = x' * 2 ^ 13 + y') :
    x = x' ∧ y = y' := by
  omega

/- Secret vectors lead to one public key. -/
theorem Derived.unique
    {publicKey' : Bytes}
    {a' : Matrix p.rows p.columns}
    {high' low' : PolyVec p.rows}
    (h : Derived b publicKey key a high low)
    (h' : Derived b publicKey' key a' high' low') :
    publicKey = publicKey' ∧ high = high' ∧ low = low' := by
  have hMatrix := Except.ok.inj (h.sampled.symm.trans h'.sampled)
  subst hMatrix
  -- Both pairs of parts make up the same public vector.
  have hParts :
      ∀ (i : Fin p.rows) (k : Fin degree),
        high[i][k] = high'[i][k] ∧ low[i][k] = low'[i][k] :=
    fun i k =>
      parts_unique (h.centred i k) (h'.centred i k)
        ((h.vector i k).trans (h'.vector i k).symm)
  have hHigh : high = high' :=
    Entries.ext_rows fun i k => (hParts i k).1
  subst hHigh
  have hPack := (unpackPublicKey_eq_ok_iff.1 h.unpacked).2
  have hPack' := (unpackPublicKey_eq_ok_iff.1 h'.unpacked).2
  exact
    ⟨Except.ok.inj (hPack.symm.trans hPack'), rfl,
      Entries.ext_rows fun i k => (hParts i k).2⟩

/- Once its matrix is sampled, a public key is derived. -/
theorem derivedKey_returns
    (hRange : key.InRange)
    (hMatrix : Sampling.matrix p b key.rho = .ok a) :
    Returns (derivedKey b key) fun publicKey =>
      ∃ high low, Derived b publicKey key a high low := by
  refine (publicVector_returns hMatrix hRange.s1
    hRange.s2).bind ?_
  intro t ht
  rcases ht with ⟨hCanonical, hElements⟩
  have hSplit :=
    PolyVec.splitPowerOfTwo_returns (ε := SchemeError) hCanonical
  refine hSplit.bind ?_
  intro split hParts
  have hHigh :
      PublicParts.InRange (p := p) ⟨key.rho, split.high⟩ :=
    fun i k => ⟨(hParts i k).2.1, (hParts i k).2.2.1⟩
  refine (packPublicKey_returns hHigh).mono ?_
  intro publicKey hPublic
  refine ⟨split.high, split.low, ?_⟩
  exact
    { sampled := hMatrix
      unpacked := hPublic.2
      centred := fun i k => (hParts i k).2.2.2
      vector := by
        intro i k
        rw [← hElements]
        exact
          (hParts i k).1.trans
            ((hCanonical i).val_residues k).symm }

/- The one way in which no public key is derived. -/
theorem derivedKey_ends
    (b : Backend)
    (hRange : key.InRange) :
    Ends
      (fun stop =>
        stop = .exhausted
          ∧ Sampling.matrix p b key.rho = .error .exhausted)
      (derivedKey b key)
      fun publicKey =>
        ∃ a high low, Derived b publicKey key a high low := by
  rcases Sampling.matrix_yields p b key.rho with
    ⟨a, hMatrix, _⟩ | ⟨_, hStop, rfl⟩
  · refine (derivedKey_returns hRange hMatrix).ends.mono ?_
    intro publicKey hDerived
    exact ⟨a, hDerived⟩
  · refine Or.inr ⟨.exhausted, ?_, rfl, hStop⟩
    rw [derivedKey, publicVector, hStop]
    rfl

theorem derivedKey_eq_ok_iff
    (hRange : key.InRange) :
    derivedKey b key = .ok publicKey
      ↔ ∃ a high low, Derived b publicKey key a high low := by
  constructor
  · exact (derivedKey_ends b hRange).of_eq_ok
  · intro hDerived
    rcases hDerived with ⟨a, high, low, hDerived⟩
    rcases derivedKey_returns hRange hDerived.sampled with
      ⟨publicKey', hOk, high', low', hDerived'⟩
    rw [(hDerived.unique hDerived').1]
    exact hOk

------------------------------------------------------------
-- Accepted Secret Keys
------------------------------------------------------------

/- The digest of a public key, as bytes. -/
theorem keyDigest_eq_iff
    (publicKey : Bytes)
    (tr : Vector UInt8 64) :
    keyDigest publicKey = tr
      ↔ tr.toList = Keccak.shake256 publicKey 64 := by
  rw [eq_comm, ← Vector.toList_inj]
  rfl

theorem checkDigest_eq_ok_iff
    {publicKey' : Bytes} :
    checkDigest key publicKey = .ok publicKey'
      ↔ key.tr.toList = Keccak.shake256 publicKey 64
        ∧ publicKey = publicKey' := by
  rw [← keyDigest_eq_iff, checkDigest, bind_eq_ok_iff]
  constructor
  · intro hOk
    rcases hOk with ⟨⟨⟩, hRequired, hSame⟩
    exact
      ⟨beq_iff_eq.1 ((require_eq_ok_iff _ _).1 hRequired),
        Except.ok.inj hSame⟩
  · intro hOk
    rcases hOk with ⟨hDigest, rfl⟩
    exact
      ⟨(), (require_eq_ok_iff _ _).2 (beq_iff_eq.2 hDigest), rfl⟩

/-
  A public key is derived from a secret key if and only if the
  seed and the secret vectors lead to it and the stored digest
  is its digest.
-/
theorem publicKeyOfSecret_eq_ok_iff :
    publicKeyOfSecret p b secretKey = .ok publicKey
      ↔ ∃ key a high low,
        unpackSecretKey p secretKey = .ok key
          ∧ Derived b publicKey key a high low
          ∧ key.tr.toList = Keccak.shake256 publicKey 64 := by
  rw [publicKeyOfSecret_eq_bind, bind_eq_ok_iff]
  constructor
  · intro hOk
    rcases hOk with ⟨key, hKey, hOk⟩
    rcases (bind_eq_ok_iff _ _ _).1 hOk with
      ⟨publicKey', hDerived, hCheck⟩
    rcases checkDigest_eq_ok_iff.1 hCheck with ⟨hDigest, rfl⟩
    have hRange :=
      ((unpackSecretKey_decides p secretKey).of_eq_ok hKey).1
    rcases (derivedKey_eq_ok_iff hRange).1 hDerived with
      ⟨a, high, low, hDerived⟩
    exact ⟨key, a, high, low, hKey, hDerived, hDigest⟩
  · intro hOk
    rcases hOk with ⟨key, a, high, low, hKey, hDerived, hDigest⟩
    have hRange :=
      ((unpackSecretKey_decides p secretKey).of_eq_ok hKey).1
    refine ⟨key, hKey, ?_⟩
    rw [(derivedKey_eq_ok_iff hRange).2 ⟨a, high, low, hDerived⟩,
      ok_bind]
    exact checkDigest_eq_ok_iff.2 ⟨hDigest, rfl⟩

/-
  The ways in which a secret key is refused, or its matrix is
  not sampled.
-/
def DerivationStops
    (p : ParameterSet)
    (b : Backend)
    (secretKey : Bytes)
    (stop : Stop SchemeError) : Prop :=
  unpackSecretKey p secretKey = .error stop
    ∨ ∃ key,
      unpackSecretKey p secretKey = .ok key
        ∧ (stop = .exhausted
              ∧ Sampling.matrix p b key.rho = .error .exhausted
            ∨ stop =
                .error
                  (.invalidKey
                    "stored tr does not match the public key")
              ∧ ∃ publicKey a high low,
                Derived b publicKey key a high low
                  ∧ key.tr.toList ≠
                    Keccak.shake256 publicKey 64)

theorem publicKeyOfSecret_ends
    (p : ParameterSet)
    (b : Backend)
    (secretKey : Bytes) :
    Ends (DerivationStops p b secretKey)
      (publicKeyOfSecret p b secretKey)
      fun _ => True := by
  rw [publicKeyOfSecret_eq_bind]
  rcases unpackSecretKey_decides p secretKey with
    ⟨key, hKey, hRange, _⟩ | ⟨stop, hStop, _⟩
  swap
  · exact Ends.bind_of_error hStop (Or.inl hStop)
  rw [hKey, ok_bind]
  refine Ends.bind ((derivedKey_ends b hRange).weaken ?_) ?_
  · intro stop hStop
    exact Or.inr ⟨key, hKey, Or.inl hStop⟩
  intro publicKey hDerived
  rcases hDerived with ⟨a, high, low, hDerived⟩
  by_cases hDigest : key.tr.toList = Keccak.shake256 publicKey 64
  · exact
      Or.inl ⟨publicKey, checkDigest_eq_ok_iff.2 ⟨hDigest, rfl⟩,
        trivial⟩
  · have hOther : (keyDigest publicKey == key.tr) = false := by
      rw [beq_eq_false_iff_ne]
      exact fun hSame =>
        hDigest ((keyDigest_eq_iff publicKey key.tr).1 hSame)
    refine Or.inr ⟨_, ?_, Or.inr ⟨key, hKey, Or.inr
      ⟨rfl, publicKey, a, high, low, hDerived, hDigest⟩⟩⟩
    rw [checkDigest, hOther]
    rfl

------------------------------------------------------------
-- Low Parts
------------------------------------------------------------

/- The stored low parts are consistent with the public key. -/
def LowPartsMatch
    (key : SecretParts p)
    (a : Matrix p.rows p.columns)
    (high : PolyVec p.rows) : Prop :=
  ∀ (i : Fin p.rows) (k : Fin degree),
    high[i][k] * 2 ^ 13 + key.t0[i][k] =
      ((Negacyclic.apply a.elements key.s1.elements
        + key.s2.elements) i k).val

theorem Derived.lowPartsMatch_iff
    (h : Derived b publicKey key a high low) :
    LowPartsMatch key a high ↔ key.t0 = low := by
  constructor
  · intro hMatch
    apply Entries.ext_rows
    intro i k
    have hSame := (hMatch i k).trans (h.vector i k).symm
    omega
  · intro hSame i k
    rw [hSame]
    exact h.vector i k

/- Low parts are not looked at. -/
theorem Derived.with_t0
    (h : Derived b publicKey key a high low)
    (t0 : PolyVec p.rows) :
    Derived b publicKey { key with t0 := t0 } a high low :=
  ⟨h.sampled, h.unpacked, h.centred, h.vector⟩

/- Any low parts in range may stand in an accepted key. -/
theorem Derived.edited_returns
    {t0 : PolyVec p.rows}
    (h : Derived b publicKey key a high low)
    (hRange : key.InRange)
    (hDigest : key.tr.toList = Keccak.shake256 publicKey 64)
    (ht0 : ∀ i : Fin p.rows, HalfOpen (-4096) 4096 t0[i]) :
    Returns (packSecretKey p { key with t0 := t0 }) fun edited =>
      unpackSecretKey p edited = .ok { key with t0 := t0 }
        ∧ publicKeyOfSecret p b edited = .ok publicKey := by
  have hEdited : SecretParts.InRange { key with t0 := t0 } :=
    ⟨hRange.s1, hRange.s2, ht0⟩
  refine (packSecretKey_returns hEdited).mono ?_
  intro edited hPacked
  exact
    ⟨hPacked.2,
      publicKeyOfSecret_eq_ok_iff.2
        ⟨_, a, high, low, hPacked.2, h.with_t0 t0, hDigest⟩⟩

/- The vector whose coefficients are all the same. -/
def constantVec
    (n : Nat)
    (c : Int) : PolyVec n :=
  Vector.replicate n (Vector.replicate degree c)

theorem getElem_constantVec
    {n : Nat}
    (c : Int)
    (i : Fin n)
    (k : Fin degree) :
    (constantVec n c)[i][k] = c := by
  simp [constantVec]

/- Low parts are never the only ones in range. -/
theorem exists_other_low
    (low : PolyVec p.rows) :
    ∃ t0 : PolyVec p.rows,
      (∀ i : Fin p.rows, HalfOpen (-4096) 4096 t0[i])
        ∧ t0 ≠ low := by
  have hRows : 0 < p.rows := by
    cases p <;> decide
  -- The zero vector is in range, and so is that of ones.
  by_cases hZero : low = constantVec p.rows 0
  · refine ⟨constantVec p.rows 1, ?_, ?_⟩
    · intro i k
      rw [getElem_constantVec]
      decide
    · intro hSame
      have hEntry :
          (constantVec p.rows 1)[(⟨0, hRows⟩ : Fin p.rows)][
            (0 : Fin degree)] = 0 := by
        rw [hSame, hZero, getElem_constantVec]
      rw [getElem_constantVec] at hEntry
      exact absurd hEntry (by decide)
  · refine ⟨constantVec p.rows 0, ?_, Ne.symm hZero⟩
    intro i k
    rw [getElem_constantVec]
    decide

/- Some accepted key has low parts that do not match. -/
theorem Derived.exists_inconsistent
    (h : Derived b publicKey key a high low)
    (hRange : key.InRange)
    (hDigest : key.tr.toList = Keccak.shake256 publicKey 64) :
    ∃ (edited : Bytes) (key' : SecretParts p),
      unpackSecretKey p edited = .ok key'
        ∧ publicKeyOfSecret p b edited = .ok publicKey
        ∧ Derived b publicKey key' a high low
        ∧ ¬ LowPartsMatch key' a high := by
  rcases exists_other_low low with ⟨t0, ht0, hOther⟩
  rcases h.edited_returns hRange hDigest ht0 with
    ⟨edited, _, hUnpack, hAccepted⟩
  refine ⟨edited, _, hUnpack, hAccepted, h.with_t0 t0, ?_⟩
  rw [(h.with_t0 t0).lowPartsMatch_iff]
  exact hOther

/- Beside every generated key, an inconsistent one is accepted. -/
theorem keyPairOfSeed_inconsistent
    (p : ParameterSet)
    (b : Backend)
    (seed : Seed) :
    Yields (keyPairOfSeed p b seed) fun keys =>
      ∃ (edited : Bytes) (key : SecretParts p)
        (a : Matrix p.rows p.columns) (high low : PolyVec p.rows),
        unpackSecretKey p edited = .ok key
          ∧ publicKeyOfSecret p b edited = .ok keys.publicKey
          ∧ Derived b keys.publicKey key a high low
          ∧ ¬ LowPartsMatch key a high := by
  refine (keyPairOfSeed_yields p b seed).mono ?_
  intro keys hKeys
  rcases hKeys with ⟨_, _, _, hGenerated⟩
  rcases publicKeyOfSecret_eq_ok_iff.1
      hGenerated.publicKeyOfSecret_eq_ok with
    ⟨key, a, high, low, hKey, hDerived, hDigest⟩
  have hRange :=
    ((unpackSecretKey_decides p keys.secretKey).of_eq_ok hKey).1
  rcases hDerived.exists_inconsistent hRange hDigest with
    ⟨edited, key', hEdited⟩
  exact ⟨edited, key', a, high, low, hEdited⟩

------------------------------------------------------------
-- What Is Checked
------------------------------------------------------------

/-
  A public key is derived from the secret keys whose seed and
  secret vectors lead to it and whose digest is its own, and
  other secret keys are refused.  The stored low parts match
  the public key if and only if they are those of the public
  vector, but they are not compared with them: with any others
  in range the key is accepted as well, so some accepted key is
  inconsistent.
-/
theorem derivation_checks_digest_only
    (p : ParameterSet)
    (b : Backend)
    (secretKey : Bytes) :
    (∀ publicKey : Bytes,
      publicKeyOfSecret p b secretKey = .ok publicKey
        ↔ ∃ key a high low,
          unpackSecretKey p secretKey = .ok key
            ∧ Derived b publicKey key a high low
            ∧ key.tr.toList = Keccak.shake256 publicKey 64)
      ∧ Ends (DerivationStops p b secretKey)
        (publicKeyOfSecret p b secretKey)
        (fun _ => True)
      ∧ ∀ (publicKey : Bytes) (key : SecretParts p)
          (a : Matrix p.rows p.columns)
          (high low : PolyVec p.rows),
        publicKeyOfSecret p b secretKey = .ok publicKey →
          unpackSecretKey p secretKey = .ok key →
          Derived b publicKey key a high low →
          (LowPartsMatch key a high ↔ key.t0 = low)
            ∧ (∀ t0 : PolyVec p.rows,
              (∀ i : Fin p.rows,
                  HalfOpen (-4096) 4096 t0[i]) →
                Returns (packSecretKey p { key with t0 := t0 })
                  fun edited =>
                    unpackSecretKey p edited =
                        .ok { key with t0 := t0 }
                      ∧ publicKeyOfSecret p b edited =
                        .ok publicKey)
            ∧ ∃ (edited : Bytes) (key' : SecretParts p),
              unpackSecretKey p edited = .ok key'
                ∧ publicKeyOfSecret p b edited = .ok publicKey
                ∧ Derived b publicKey key' a high low
                ∧ ¬ LowPartsMatch key' a high := by
  refine ⟨fun publicKey => publicKeyOfSecret_eq_ok_iff,
    publicKeyOfSecret_ends p b secretKey, ?_⟩
  intro publicKey key a high low hOk hKey hDerived
  have hRange :=
    ((unpackSecretKey_decides p secretKey).of_eq_ok hKey).1
  rcases publicKeyOfSecret_eq_ok_iff.1 hOk with
    ⟨key', _, _, _, hKey', _, hDigest⟩
  have hSame := Except.ok.inj (hKey'.symm.trans hKey)
  rw [hSame] at hDigest
  refine ⟨hDerived.lowPartsMatch_iff, ?_,
    hDerived.exists_inconsistent hRange hDigest⟩
  intro t0 ht0
  exact hDerived.edited_returns hRange hDigest ht0

end Scheme

end LatticeSignature
