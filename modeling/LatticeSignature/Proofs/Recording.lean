import LatticeSignature.Error.Scheme
import LatticeSignature.Proofs.Outcome
import LatticeSignature.Stream.Seeded

/-
  Computations that keep a record of the streams that they
  open.  A computation that stops keeps its record up to there.

  Main declarations:
    * `Opening`, `Opening.stream`
    * `Recorded`
    * `Recorded.silent`, `Recorded.opens`, `Recorded.tabulate`
    * `Recorded.outcome_bind`, `Recorded.outcome_tabulate`
    * `Recorded.openings_bind_silent`
    * `Recorded.openings_tabulate`
-/

------------------------------------------------------------
-- Records
------------------------------------------------------------

namespace LatticeSignature

open Outcome

/- What a stream is opened with. -/
structure Opening where
  kind : StreamKind
  seed : Bytes
  nonce : UInt16
deriving DecidableEq, Repr

/- The stream that is opened, at its start. -/
def Opening.stream
    (o : Opening) : Outcome PrimitiveError SeededStream :=
  SeededStream.start o.kind o.seed o.nonce

/- An outcome, and the openings on the way to it in order. -/
structure Recorded (ε α : Type) where
  openings : List Opening
  outcome : Outcome ε α

namespace Recorded

variable {ε α β : Type}

/- A computation that opens no stream. -/
def silent
    (r : Outcome ε α) : Recorded ε α :=
  ⟨[], r⟩

/- A computation that opens one stream. -/
def opens
    (o : Opening)
    (r : Outcome ε α) : Recorded ε α :=
  ⟨[o], r⟩

/- What follows a computation adds to its record. -/
def andThen
    (x : Recorded ε α)
    (f : α → Recorded ε β) : Recorded ε β :=
  match x.outcome with
  | .ok a => ⟨x.openings ++ (f a).openings, (f a).outcome⟩
  | .error stop => ⟨x.openings, .error stop⟩

instance : Monad (Recorded ε) where
  pure a := silent (.ok a)
  bind := andThen

/- Evaluate a family in index order. -/
def tabulate
    {n : Nat}
    (f : Fin n → Recorded ε α) : Recorded ε (Vector α n) :=
  Vector.ofFnM f

------------------------------------------------------------
-- Outcomes of Recorded Computations
------------------------------------------------------------

theorem bind_of_ok
    {x : Recorded ε α}
    {a : α}
    (f : α → Recorded ε β)
    (hOk : x.outcome = .ok a) :
    x >>= f =
      ⟨x.openings ++ (f a).openings, (f a).outcome⟩ := by
  change andThen x f = _
  rw [andThen, hOk]

theorem bind_of_error
    {x : Recorded ε α}
    {stop : Stop ε}
    (f : α → Recorded ε β)
    (hStop : x.outcome = .error stop) :
    x >>= f = ⟨x.openings, .error stop⟩ := by
  change andThen x f = _
  rw [andThen, hStop]

theorem bind_assoc
    {γ : Type}
    (x : Recorded ε α)
    (f : α → Recorded ε β)
    (g : β → Recorded ε γ) :
    x >>= f >>= g = x >>= fun a => f a >>= g := by
  cases hOutcome : x.outcome with
  | error stop =>
      rw [bind_of_error f hOutcome, bind_of_error _ hOutcome]
      rfl
  | ok a =>
      rw [bind_of_ok f hOutcome, bind_of_ok _ hOutcome]
      cases hNext : (f a).outcome with
      | error stop =>
          rw [bind_of_error g hNext]
          rfl
      | ok b =>
          rw [bind_of_ok g hNext, ← List.append_assoc]
          rfl

theorem bind_pure
    (x : Recorded ε α) :
    x >>= pure = x := by
  rcases x with ⟨openings, _ | a⟩
  · rfl
  · exact congrArg (fun all => (⟨all, .ok a⟩ : Recorded ε α))
      (List.append_nil openings)

instance : LawfulMonad (Recorded ε) :=
  LawfulMonad.mk' (Recorded ε)
    bind_pure
    (fun _ _ => rfl)
    bind_assoc

/- The record has no influence on the outcome. -/
theorem outcome_bind
    (x : Recorded ε α)
    (f : α → Recorded ε β) :
    (x >>= f).outcome =
      x.outcome >>= fun a => (f a).outcome := by
  cases hOutcome : x.outcome with
  | ok a => rw [bind_of_ok f hOutcome, ok_bind]
  | error stop =>
      rw [bind_of_error f hOutcome]
      rfl

theorem outcome_tabulate
    {n : Nat}
    (f : Fin n → Recorded ε α) :
    (tabulate f).outcome =
      Outcome.tabulate fun i => (f i).outcome := by
  induction n with
  | zero =>
      unfold tabulate Outcome.tabulate
      rw [Vector.ofFnM_zero, Vector.ofFnM_zero]
      rfl
  | succ n ih =>
      have hFront := ih fun i => f i.castSucc
      unfold tabulate Outcome.tabulate at hFront ⊢
      rw [Vector.ofFnM_succ, Vector.ofFnM_succ, outcome_bind,
        hFront]
      simp only [outcome_bind]
      rfl

------------------------------------------------------------
-- Openings of Recorded Computations
------------------------------------------------------------

/- A computation with a silent end has the record before it. -/
theorem openings_bind_silent
    (x : Recorded ε α)
    (f : α → Outcome ε β) :
    (x >>= fun a => silent (f a)).openings = x.openings := by
  cases hOutcome : x.outcome with
  | ok a =>
      rw [bind_of_ok _ hOutcome]
      exact List.append_nil x.openings
  | error stop => rw [bind_of_error _ hOutcome]

/- A family opens the streams of its members in order. -/
theorem openings_tabulate
    {n : Nat}
    {o : Fin n → Opening}
    {r : Fin n → Outcome ε α}
    (h : ∀ i, Returns (r i) fun _ => True) :
    (tabulate fun i => opens (o i) (r i)).openings =
      List.ofFn o := by
  induction n with
  | zero =>
      unfold tabulate
      rw [Vector.ofFnM_zero]
      rfl
  | succ n ih =>
      have hFront := ih (o := fun i => o i.castSucc) fun i =>
        h i.castSucc
      rcases returns_tabulate fun i : Fin n => h i.castSucc with
        ⟨front, hOk, _⟩
      rcases h (Fin.last n) with ⟨last, hLast, _⟩
      replace hOk :=
        (outcome_tabulate fun i : Fin n =>
          opens (o i.castSucc) (r i.castSucc)).trans hOk
      unfold tabulate at hFront hOk ⊢
      rw [Vector.ofFnM_succ, bind_of_ok _ hOk, hFront,
        bind_of_ok _ hLast, List.ofFn_succ_last]
      rfl

end Recorded

end LatticeSignature
