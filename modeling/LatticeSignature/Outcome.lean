import LatticeSignature.Indexing

/-
  This file defines the result of a computation that may be
  refused, may leave its word size, or may run out of
  sampling candidates.

  Main declarations:
    * `Stop`
    * `Outcome`
    * `Outcome.fail`, `Outcome.require`
    * `Outcome.mapError`
    * `Outcome.bind_eq_ok_iff`
    * `Outcome.tabulate`
    * `Outcome.tabulate_eq_ok_iff`
    * `Outcome.mapEntries`, `Outcome.zipEntries`
-/

------------------------------------------------------------
-- Outcomes
------------------------------------------------------------

namespace LatticeSignature

/-
  The ways in which a computation ends without a value: an
  error with its cause, a number that leaves its word size or
  the table that it indexes, or a sampler whose budget of
  candidates is spent.
-/
inductive Stop (ε : Type) where
  | error (cause : ε)
  | overflow
  | exhausted
deriving DecidableEq, Repr

/- A value, or the reason why there is none. -/
abbrev Outcome (ε α : Type) :=
  Except (Stop ε) α

namespace Outcome

variable {ε δ α β : Type}

/- End with a cause. -/
def fail
    (cause : ε) : Outcome ε α :=
  .error (.error cause)

/- Accept a condition, or end with a cause. -/
def require
    (condition : Bool)
    (cause : ε) : Outcome ε Unit :=
  if condition then .ok () else fail cause

theorem require_eq_ok_iff
    (condition : Bool)
    (cause : ε) :
    require condition cause = .ok () ↔ condition = true := by
  cases condition <;> simp [require, fail]

/- Reword the cause of a stop. -/
def mapStop
    (f : ε → δ) : Stop ε → Stop δ
  | .error cause => .error (f cause)
  | .overflow => .overflow
  | .exhausted => .exhausted

/- Reword the cause of an error and keep everything else. -/
def mapError
    (f : ε → δ) : Outcome ε α → Outcome δ α
  | .ok value => .ok value
  | .error stop => .error (mapStop f stop)

theorem mapError_eq_ok_iff
    (f : ε → δ)
    (r : Outcome ε α)
    (value : α) :
    mapError f r = .ok value ↔ r = .ok value := by
  cases r <;> simp [mapError]

theorem bind_eq_ok_iff
    (r : Outcome ε α)
    (f : α → Outcome ε β)
    (b : β) :
    (r >>= f) = .ok b ↔ ∃ a, r = .ok a ∧ f a = .ok b := by
  cases r <;> simp [bind, Except.bind]

------------------------------------------------------------
-- Families of Outcomes
------------------------------------------------------------

/-
  Evaluate a family in index order.  The first index without
  a value decides how the whole family stops.
-/
def tabulate
    {n : Nat}
    (f : Fin n → Outcome ε α) : Outcome ε (Vector α n) :=
  Vector.ofFnM f

/- A family has a value exactly when each member has one. -/
theorem tabulate_eq_ok_iff
    {n : Nat}
    (f : Fin n → Outcome ε α)
    (v : Vector α n) :
    tabulate f = .ok v ↔ ∀ i : Fin n, f i = .ok v[i] := by
  induction n with
  | zero =>
      simp only [tabulate, Vector.ofFnM_zero]
      constructor
      · intro _ i
        exact i.elim0
      · intro _
        exact congrArg Except.ok (Vector.eq_empty).symm
  | succ n ih =>
      rw [tabulate, Vector.ofFnM_succ, bind_eq_ok_iff]
      constructor
      · rintro ⟨front, hFront, hLast⟩
        obtain ⟨last, hf, hv⟩ :=
          (bind_eq_ok_iff _ _ _).1 hLast
        have hPush : front.push last = v := by
          simpa [pure, Except.pure] using hv
        have hAll := (ih (fun i => f i.castSucc) front).1 hFront
        subst hPush
        intro i
        by_cases hi : i.val < n
        · have h := hAll ⟨i.val, hi⟩
          simpa [Vector.getElem_push, hi] using h
        · have hEq : i = Fin.last n := by
            apply Fin.ext
            simp
            omega
          subst hEq
          simpa [Vector.getElem_push] using hf
      · intro h
        refine ⟨v.pop, ?_, ?_⟩
        · apply (ih _ _).2
          intro i
          have hi := h i.castSucc
          simpa using hi
        · rw [bind_eq_ok_iff]
          refine ⟨v.back, ?_, ?_⟩
          · have hl := h (Fin.last n)
            simpa [Vector.back] using hl
          · simp [pure, Except.pure]

/- Apply a checked operation to every entry. -/
def mapEntries
    {n : Nat}
    (f : α → Outcome ε β)
    (v : Vector α n) : Outcome ε (Vector β n) :=
  tabulate fun i => f v[i]

/- The results of the entries are the entries of the result. -/
theorem mapEntries_eq_ok_iff
    {n : Nat}
    (f : α → Outcome ε β)
    (v : Vector α n)
    (w : Vector β n) :
    mapEntries f v = .ok w ↔ ∀ i : Fin n, f v[i] = .ok w[i] :=
  tabulate_eq_ok_iff _ _

/- Combine the entries of two vectors by a checked operation. -/
def zipEntries
    {γ : Type}
    {n : Nat}
    (f : α → β → Outcome ε γ)
    (v : Vector α n)
    (w : Vector β n) : Outcome ε (Vector γ n) :=
  tabulate fun i => f v[i] w[i]

theorem zipEntries_eq_ok_iff
    {γ : Type}
    {n : Nat}
    (f : α → β → Outcome ε γ)
    (v : Vector α n)
    (w : Vector β n)
    (u : Vector γ n) :
    zipEntries f v w = .ok u ↔
      ∀ i : Fin n, f v[i] w[i] = .ok u[i] :=
  tabulate_eq_ok_iff _ _

end Outcome

end LatticeSignature
