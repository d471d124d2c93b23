import LatticeSignature.Proofs.Encoding.Keys

/-
  A key is written in one way only.  All byte strings of the
  right size are public keys; those whose secret fields are in
  range are secret keys.

  Main declarations:
    * `Bits.fields_add`
    * `Encoding.packedFields`, `Encoding.secretFields`
    * `Encoding.SecretsFit`
    * `Encoding.unpackPublicKey_returns`
    * `Encoding.unpackSecretKey_ends`
    * `Encoding.key_formats_canonical`
-/

------------------------------------------------------------
-- Fields of Byte Strings
------------------------------------------------------------

namespace LatticeSignature

namespace Bits

/- The fields that follow some fields begin after them. -/
theorem fields_add
    (width m n : Nat)
    (s : Bits) :
    fields width (m + n) s =
      fields width m s ++ fields width n (s.drop (m * width)) := by
  induction m generalizing s with
  | zero => simp [fields]
  | succ m ih =>
      have hDrop :
          (s.drop width).drop (m * width) =
            s.drop ((m + 1) * width) := by
        rw [List.drop_drop, Nat.succ_mul, Nat.add_comm]
      rw [Nat.add_right_comm, fields, ih, hDrop, fields,
        List.cons_append]

/- Fields do not depend on what follows them. -/
theorem fields_take
    (width n : Nat)
    (s : Bits) :
    fields width n (s.take (n * width)) = fields width n s := by
  induction n generalizing s with
  | zero => rfl
  | succ n ih =>
      have hFirst :
          (s.take ((n + 1) * width)).take width =
            s.take width := by
        rw [List.take_take, Nat.succ_mul,
          Nat.min_eq_left (Nat.le_add_left _ _)]
      have hRest :
          (s.take ((n + 1) * width)).drop width =
            (s.drop width).take (n * width) := by
        rw [List.drop_take, Nat.succ_mul, Nat.add_sub_cancel]
      rw [fields, hFirst, hRest, ih, fields]

/- The bits of the first bytes are the first bits. -/
theorem take_ofBytes
    (size : Nat)
    (s : Bytes) :
    (ofBytes s).take (8 * size) = ofBytes (s.take size) := by
  induction size generalizing s with
  | zero => rfl
  | succ size ih =>
      cases s with
      | nil => rfl
      | cons b rest =>
          change (ofNat 8 b.toNat ++ ofBytes rest).take _ =
            ofNat 8 b.toNat ++ ofBytes (rest.take size)
          rw [← ih, Nat.mul_succ, Nat.add_comm,
            ← List.take_length_add_append, length_ofNat]

/- The bits of the other bytes are the other bits. -/
theorem drop_ofBytes
    (size : Nat)
    (s : Bytes) :
    (ofBytes s).drop (8 * size) = ofBytes (s.drop size) := by
  induction size generalizing s with
  | zero => rfl
  | succ size ih =>
      cases s with
      | nil => simp [ofBytes]
      | cons b rest =>
          change (ofNat 8 b.toNat ++ ofBytes rest).drop _ =
            ofBytes (rest.drop size)
          rw [← ih, Nat.mul_succ, Nat.add_comm, ← List.drop_drop,
            List.drop_left' (length_ofNat 8 b.toNat)]

end Bits

namespace Encoding

open Outcome Packing

/- The fields of `n` polynomials that are packed in a row. -/
def packedFields
    (width n : Nat)
    (s : Bytes) : List Nat :=
  Bits.fields width (n * degree) (Bits.ofBytes s)

/- A polynomial has as many bits as its bytes have. -/
theorem mul_degree_mul
    (n width : Nat) :
    n * degree * width = 8 * (n * packedBytes width) := by
  rw [Nat.mul_assoc, ← packedBytes_mul_eight]
  ring

/- A row of polynomials can be cut into two. -/
theorem packedFields_add
    (width m n : Nat)
    (s : Bytes) :
    packedFields width (m + n) s =
      packedFields width m s
        ++ packedFields width n
          (s.drop (m * packedBytes width)) := by
  unfold packedFields
  rw [Nat.add_mul, Bits.fields_add, mul_degree_mul,
    Bits.drop_ofBytes]

/- The fields of one polynomial are found in its part. -/
theorem packedFields_part
    (width start : Nat)
    (s : Bytes) :
    packedFields width 1 (part s start (packedBytes width)) =
      packedFields width 1 (s.drop start) := by
  have hBits := mul_degree_mul 1 width
  rw [Nat.one_mul (packedBytes width)] at hBits
  unfold packedFields part
  rw [← Bits.take_ofBytes, ← hBits, Bits.fields_take]

/- A field of a row of polynomials is a field of one of them. -/
theorem mem_packedFields_iff
    {width n field : Nat}
    {s : Bytes} :
    field ∈ packedFields width n s
      ↔ ∃ i : Fin n,
        field ∈
          packedFields width 1
            (part s (i.val * packedBytes width)
              (packedBytes width)) := by
  induction n with
  | zero =>
      rw [packedFields, Nat.zero_mul, Bits.fields]
      simp
  | succ n ih =>
      rw [packedFields_add, List.mem_append, ih,
        Fin.exists_fin_succ', ← packedFields_part]
      rfl

------------------------------------------------------------
-- Secret Fields
------------------------------------------------------------

/- The fields hold the distances of secret coefficients. -/
def SecretsFit
    (p : ParameterSet)
    (fields : List Nat) : Prop :=
  ∀ field ∈ fields, field ≤ 2 * p.eta

instance
    (p : ParameterSet)
    (fields : List Nat) :
    Decidable (SecretsFit p fields) := by
  unfold SecretsFit
  infer_instance

/- The fields of the secret vectors, in a secret key. -/
def secretFields
    (p : ParameterSet)
    (s : Bytes) : List Nat :=
  packedFields p.secretBits (p.columns + p.rows) (s.drop 128)

theorem length_secretFields
    (p : ParameterSet)
    (s : Bytes) :
    (secretFields p s).length =
      degree * (p.columns + p.rows) := by
  rw [secretFields, packedFields, Bits.length_fields,
    Nat.mul_comm]

/- The refusal of fields, of which one is out of range. -/
def RefusesSecrets
    (p : ParameterSet)
    (fields : List Nat)
    (stop : Stop SchemeError) : Prop :=
  stop =
      .error (.deserialization "secret coefficient out of range")
    ∧ ¬ SecretsFit p fields

theorem RefusesSecrets.mono
    {p : ParameterSet}
    {fields fields' : List Nat}
    {stop : Stop SchemeError}
    (h : RefusesSecrets p fields stop)
    (hSubset : fields ⊆ fields') :
    RefusesSecrets p fields' stop := by
  refine ⟨h.1, ?_⟩
  intro hFit
  apply h.2
  intro field hField
  exact hFit field (hSubset hField)

/- A coefficient is too low where its distance is too great. -/
theorem any_distance_eq_false_iff
    (p : ParameterSet)
    (width : Nat)
    (s : Bytes) :
    (((ofBits width (Bits.ofBytes s)).map fun field =>
        (p.eta : Int) - field).any fun c =>
          c < -(p.eta : Int)) = false
      ↔ SecretsFit p (packedFields width 1 s) := by
  rw [← Vector.any_toList, Vector.toList_map, toList_ofBits,
    List.any_map, List.any_map, List.any_eq_false]
  unfold SecretsFit packedFields
  rw [Nat.one_mul]
  refine forall₂_congr fun field _ => ?_
  rw [Function.comp_apply, Function.comp_apply,
    decide_eq_true_eq, Int.ofNat_eq_natCast]
  omega

/- A polynomial is unpacked if and only if its fields fit. -/
theorem unpackSecret_ends
    {p : ParameterSet}
    {s : Bytes}
    (hSize : s.length = p.secretPolyBytes) :
    Ends (RefusesSecrets p (packedFields p.secretBits 1 s))
      (unpackSecret p s)
      fun _ => SecretsFit p (packedFields p.secretBits 1 s) := by
  have hDistances :=
    unpackOffset_eq_ok (isWidth_secretBits p) (eta_le_two_pow p)
      hSize
  have hFit := any_distance_eq_false_iff p p.secretBits s
  rw [unpackSecret, hDistances, ok_bind, ← hFit]
  split
  · rename_i hBelow
    refine Or.inr ⟨_, rfl, rfl, ?_⟩
    rw [← hFit, hBelow]
    exact Bool.noConfusion
  · rename_i hAbove
    exact Or.inl (returns_ok (Bool.eq_false_of_not_eq_true hAbove))

/- A vector is unpacked if and only if all its fields fit. -/
theorem unpackSecrets_ends
    {p : ParameterSet}
    {n : Nat}
    {s : Bytes}
    (hSize : n * p.secretPolyBytes ≤ s.length) :
    Ends (RefusesSecrets p (packedFields p.secretBits n s))
      (unpackVec n p.secretPolyBytes (unpackSecret p) s)
      fun _ => SecretsFit p (packedFields p.secretBits n s) := by
  refine Ends.mono
    (ends_tabulate (P := fun (i : Fin n) _ =>
      SecretsFit p
        (packedFields p.secretBits 1
          (part s (i.val * p.secretPolyBytes)
            p.secretPolyBytes)))
      fun i => ?_)
    ?_
  · have hPart :=
      length_part
        ((part_end_le p.secretPolyBytes i).trans hSize)
    refine (unpackSecret_ends hPart).weaken ?_
    intro stop hStop
    apply hStop.mono
    intro field hField
    exact mem_packedFields_iff.2 ⟨i, hField⟩
  · intro _ hFit field hField
    rcases mem_packedFields_iff.1 hField with ⟨i, hPart⟩
    exact hFit i field hPart

------------------------------------------------------------
-- Key Formats
------------------------------------------------------------

/- Every string of the right size holds high parts. -/
theorem unpackHighPart_returns
    {s : Bytes}
    (hSize : s.length = packedBytes highPartBits) :
    Returns (unpackHighPart s) (FitsWidth highPartBits) :=
  (unpackPlain_returns isWidth_highPartBits hSize).mono
    fun _ h => h.1

/- Every string of the right size holds low parts. -/
theorem unpackLowPart_returns
    {s : Bytes}
    (hSize : s.length = packedBytes Rounding.droppedBits) :
    Returns (unpackLowPart s) (HalfOpen (-4096) 4096) :=
  (@unpackOffset_returns 4096 _ s isWidth_droppedBits (by decide)
    hSize).mono fun _ h => h.1

/- Every byte string of the right size is a public key. -/
theorem unpackPublicKey_returns
    {p : ParameterSet}
    {s : Bytes}
    (hSize : s.length = p.publicKeyBytes) :
    Returns (unpackPublicKey p s) fun key =>
      key.InRange ∧ packPublicKey p key = .ok s := by
  have hReturns : Returns (unpackPublicKey p s) fun _ => True := by
    have hRest :
        p.rows * packedBytes highPartBits ≤
          (s.drop 32).length := by
      rw [List.length_drop, hSize]
      exact Nat.le_sub_of_add_le' (Nat.le_refl _)
    rw [unpackPublicKey, dif_pos hSize]
    refine (unpackVec_returns unpackHighPart_returns hRest).bind ?_
    intro t1 _
    exact returns_ok trivial
  exact hReturns.of_ends (unpackPublicKey_decides p s)

/-
  A byte string of the right size is a secret key if and only
  if its secret fields fit.
-/
theorem unpackSecretKey_ends
    {p : ParameterSet}
    {s : Bytes}
    (hSize : s.length = p.secretKeyBytes) :
    Ends (RefusesSecrets p (secretFields p s))
      (unpackSecretKey p s)
      fun _ => SecretsFit p (secretFields p s) := by
  have hVectors := length_secretVectors hSize
  have hFields :
      secretFields p s =
        packedFields p.secretBits p.columns (s.drop 128)
          ++ packedFields p.secretBits p.rows
            ((s.drop 128).drop (p.columns * p.secretPolyBytes)) :=
    packedFields_add p.secretBits p.columns p.rows (s.drop 128)
  rw [unpackSecretKey, dif_pos hSize, hFields]
  dsimp only
  generalize s.drop 128 = v at hVectors ⊢
  have hRest :
      p.rows * p.secretPolyBytes
          + p.rows * packedBytes Rounding.droppedBits =
        (v.drop (p.columns * p.secretPolyBytes)).length := by
    rw [List.length_drop]
    omega
  have hLast :
      p.rows * packedBytes Rounding.droppedBits =
        (v.drop (p.columns * p.secretPolyBytes
          + p.rows * p.secretPolyBytes)).length := by
    rw [List.length_drop]
    omega
  refine Ends.bind
    ((unpackSecrets_ends (by omega)).weaken fun stop hStop =>
      hStop.mono (List.subset_append_left _ _))
    ?_
  intro s1 hFit1
  refine Ends.bind
    ((unpackSecrets_ends (by omega)).weaken fun stop hStop =>
      hStop.mono (List.subset_append_right _ _))
    ?_
  intro s2 hFit2
  refine Ends.bind
    (unpackVec_returns unpackLowPart_returns hLast.le).ends
    ?_
  intro t0 _
  apply Returns.ends
  apply returns_ok
  unfold SecretsFit
  rw [List.forall_mem_append]
  exact ⟨hFit1, hFit2⟩

/- A secret key is accepted for its secret fields only. -/
theorem exists_unpackSecretKey_iff
    {p : ParameterSet}
    {s : Bytes}
    (hSize : s.length = p.secretKeyBytes) :
    (∃ key, unpackSecretKey p s = .ok key)
      ↔ SecretsFit p (secretFields p s) := by
  constructor
  · intro hAccepted
    rcases hAccepted with ⟨key, hKey⟩
    exact (unpackSecretKey_ends hSize).of_eq_ok hKey
  · intro hFit
    rcases unpackSecretKey_ends hSize with
      ⟨key, hKey, _⟩ | ⟨stop, _, _, hRefused⟩
    · exact ⟨key, hKey⟩
    · exact absurd hFit hRefused

/-
  Every byte string of the size of a public key is one, and
  those of the size of a secret key are secret keys if and only
  if no field of them is greater than `2 * eta`.  A key is made
  again from the parts that are found in it, parts in range are
  found again in the key that they make, and strings of other
  sizes are refused.
-/
theorem key_formats_canonical
    (p : ParameterSet) :
    (∀ s : Bytes,
      s.length = p.publicKeyBytes →
        Returns (unpackPublicKey p s) fun key =>
          packPublicKey p key = .ok s)
      ∧ (∀ key : PublicParts p,
        key.InRange →
          Returns (packPublicKey p key) fun s =>
            s.length = p.publicKeyBytes
              ∧ unpackPublicKey p s = .ok key)
      ∧ (∀ s : Bytes,
        s.length = p.secretKeyBytes →
          (secretFields p s).length =
              degree * (p.columns + p.rows)
            ∧ ((∃ key, unpackSecretKey p s = .ok key)
              ↔ ∀ field ∈ secretFields p s,
                field ≤ 2 * p.eta))
      ∧ (∀ (s : Bytes) (key : SecretParts p),
        unpackSecretKey p s = .ok key →
          packSecretKey p key = .ok s)
      ∧ (∀ key : SecretParts p,
        key.InRange →
          Returns (packSecretKey p key) fun s =>
            s.length = p.secretKeyBytes
              ∧ unpackSecretKey p s = .ok key)
      ∧ (∀ s : Bytes,
        s.length ≠ p.publicKeyBytes →
          unpackPublicKey p s =
            Outcome.fail
              (.invalidKeySize p.publicKeyBytes s.length))
      ∧ ∀ s : Bytes,
        s.length ≠ p.secretKeyBytes →
          unpackSecretKey p s =
            Outcome.fail
              (.invalidKeySize p.secretKeyBytes s.length) := by
  refine ⟨?_, fun key => packPublicKey_returns, ?_, ?_,
    fun key => packSecretKey_returns,
    fun s => unpackPublicKey_eq_fail,
    fun s => unpackSecretKey_eq_fail⟩
  · intro s hSize
    exact (unpackPublicKey_returns hSize).mono fun _ h => h.2
  · intro s hSize
    constructor
    · exact length_secretFields p s
    · exact exists_unpackSecretKey_iff hSize
  · intro s key hKey
    exact ((unpackSecretKey_decides p s).of_eq_ok hKey).2

end Encoding

end LatticeSignature
