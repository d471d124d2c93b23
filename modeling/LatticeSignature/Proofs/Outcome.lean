import Mathlib.Tactic.Choose
import LatticeSignature.Outcome

/-
  Total correctness of checked computations: a computation
  returns a value with a property, or stops in one of the ways
  that are allowed.

  Main declarations:
    * `Outcome.Returns`
    * `Outcome.Returns.bind`
    * `Outcome.returns_tabulate`
    * `Outcome.Ends`
    * `Outcome.Ends.bind`, `Outcome.Ends.mapError`
    * `Outcome.ends_tabulate`
    * `Outcome.Yields`, `Outcome.Decides`
    * `Outcome.NoOverflow`
-/

------------------------------------------------------------
-- Computations That Return
------------------------------------------------------------

namespace LatticeSignature

namespace Outcome

variable {ε α β γ : Type}

/- The computation has a value, and the value has a property. -/
def Returns
    (r : Outcome ε α)
    (P : α → Prop) : Prop :=
  ∃ a, r = .ok a ∧ P a

/- A value with the property. -/
theorem returns_ok
    {P : α → Prop}
    {a : α}
    (h : P a) :
    Returns (.ok a : Outcome ε α) P :=
  ⟨a, rfl, h⟩

namespace Returns

variable {r : Outcome ε α}
variable {P P' : α → Prop}

/- A weaker property of the value. -/
theorem mono
    (h : Returns r P)
    (hImplies : ∀ a, P a → P' a) :
    Returns r P' := by
  rcases h with ⟨a, hOk, hP⟩
  exact ⟨a, hOk, hImplies a hP⟩

/- A step whose value is known to be good can be continued. -/
theorem bind
    {f : α → Outcome ε β}
    {Q : β → Prop}
    (h : Returns r P)
    (hNext : ∀ a, P a → Returns (f a) Q) :
    Returns (r >>= f) Q := by
  rcases h with ⟨a, rfl, hP⟩
  exact hNext a hP

/- The property holds of the value that is seen. -/
theorem of_eq_ok
    {a : α}
    (h : Returns r P)
    (hOk : r = .ok a) :
    P a := by
  rcases h with ⟨b, hb, hP⟩
  rw [hOk] at hb
  cases hb
  exact hP

/- The value is the one that the computation has. -/
theorem with_eq
    (h : Returns r P) :
    Returns r fun a => r = .ok a ∧ P a := by
  rcases h with ⟨a, hOk, hP⟩
  exact ⟨a, hOk, hOk, hP⟩

end Returns

/- A step with a value is followed by the next one. -/
theorem ok_bind
    (a : α)
    (f : α → Outcome ε β) :
    ((.ok a : Outcome ε α) >>= f) = f a :=
  rfl

/- A satisfied requirement is no obstacle. -/
theorem require_bind
    {condition : Bool}
    {cause : ε}
    {f : Unit → Outcome ε β}
    (h : condition = true) :
    (require condition cause >>= f) = f () := by
  subst h
  rfl

/- A value is put in another form. -/
theorem map_eq_ok_iff
    (f : α → β)
    (r : Outcome ε α)
    (b : β) :
    f <$> r = .ok b ↔ ∃ a, r = .ok a ∧ f a = b := by
  cases r <;> simp [Functor.map, Except.map]

/- A stop comes from the first part, unless from the rest. -/
theorem eq_error_of_bind
    {r : Outcome ε α}
    {f : α → Outcome ε β}
    {stop : Stop ε}
    (h : r >>= f = .error stop)
    (hNext : ∀ a, r = .ok a → f a ≠ .error stop) :
    r = .error stop := by
  cases r with
  | ok a => exact absurd h (hNext a rfl)
  | error stop' =>
      cases h
      rfl

/- Only the values of a step decide what follows it. -/
theorem bind_congr_of_eq_ok
    {r : Outcome ε α}
    {f g : α → Outcome ε β}
    (h : ∀ a, r = .ok a → f a = g a) :
    r >>= f = r >>= g := by
  cases r with
  | ok a => exact h a rfl
  | error stop => rfl

/- A family returns when each of its members does. -/
theorem returns_tabulate
    {n : Nat}
    {f : Fin n → Outcome ε α}
    {P : Fin n → α → Prop}
    (h : ∀ i, Returns (f i) (P i)) :
    Returns (tabulate f) fun v => ∀ i : Fin n, P i v[i] := by
  choose value hOk hP using h
  refine ⟨Vector.ofFn value, ?_, ?_⟩
  · rw [tabulate_eq_ok_iff]
    intro i
    simpa using hOk i
  · intro i
    simpa using hP i

/- Entries that are mapped on their own. -/
theorem returns_mapEntries
    {n : Nat}
    {f : α → Outcome ε β}
    {v : Vector α n}
    {P : Fin n → β → Prop}
    (h : ∀ i : Fin n, Returns (f v[i]) (P i)) :
    Returns (mapEntries f v) fun w => ∀ i : Fin n, P i w[i] :=
  returns_tabulate h

/- Entries of two vectors that are paired. -/
theorem returns_zipEntries
    {n : Nat}
    {f : α → β → Outcome ε γ}
    {v : Vector α n}
    {w : Vector β n}
    {P : Fin n → γ → Prop}
    (h : ∀ i : Fin n, Returns (f v[i] w[i]) (P i)) :
    Returns (zipEntries f v w) fun u => ∀ i : Fin n, P i u[i] :=
  returns_tabulate h

------------------------------------------------------------
-- Computations That May Stop
------------------------------------------------------------

/-
  The computation returns, unless it stops in one of the ways
  that are allowed.
-/
def Ends
    (allowed : Stop ε → Prop)
    (r : Outcome ε α)
    (P : α → Prop) : Prop :=
  Returns r P ∨ ∃ stop, r = .error stop ∧ allowed stop

/- What never stops may be allowed to stop. -/
theorem Returns.ends
    {allowed : Stop ε → Prop}
    {r : Outcome ε α}
    {P : α → Prop}
    (h : Returns r P) :
    Ends allowed r P :=
  Or.inl h

namespace Ends

variable {allowed allowed' : Stop ε → Prop}
variable {r : Outcome ε α}
variable {P P' : α → Prop}

/- A weaker property of the value. -/
theorem mono
    (h : Ends allowed r P)
    (hImplies : ∀ a, P a → P' a) :
    Ends allowed r P' :=
  h.imp_left fun hReturns => hReturns.mono hImplies

/- More stops are allowed. -/
theorem weaken
    (h : Ends allowed r P)
    (hImplies : ∀ stop, allowed stop → allowed' stop) :
    Ends allowed' r P := by
  rcases h with hReturns | ⟨stop, hStop, hAllowed⟩
  · exact Or.inl hReturns
  · exact Or.inr ⟨stop, hStop, hImplies stop hAllowed⟩

/- Both parts stop as allowed. -/
theorem bind
    {f : α → Outcome ε β}
    {Q : β → Prop}
    (h : Ends allowed r P)
    (hNext : ∀ a, P a → Ends allowed (f a) Q) :
    Ends allowed (r >>= f) Q := by
  rcases h with ⟨a, rfl, hP⟩ | ⟨stop, rfl, hAllowed⟩
  · exact hNext a hP
  · exact Or.inr ⟨stop, rfl, hAllowed⟩

/- A value may be put into another form. -/
theorem map
    {f : α → β}
    {Q : β → Prop}
    (h : Ends allowed r P)
    (hNext : ∀ a, P a → Q (f a)) :
    Ends allowed (f <$> r) Q := by
  rcases h with ⟨a, rfl, hP⟩ | ⟨stop, rfl, hAllowed⟩
  · exact Or.inl ⟨f a, rfl, hNext a hP⟩
  · exact Or.inr ⟨stop, rfl, hAllowed⟩

/- A refusal of a step is a refusal of the whole. -/
theorem bind_of_error
    {stop : Stop ε}
    {f : α → Outcome ε β}
    {Q : β → Prop}
    (hStop : r = .error stop)
    (hAllowed : allowed stop) :
    Ends allowed (r >>= f) Q := by
  subst hStop
  exact Or.inr ⟨stop, rfl, hAllowed⟩

/- A cause may be reworded. -/
theorem mapError
    {δ : Type}
    (f : ε → δ)
    (h : Ends allowed r P) :
    Ends
      (fun stop => ∃ inner, allowed inner ∧ mapStop f inner = stop)
      (Outcome.mapError f r)
      P := by
  rcases h with ⟨a, rfl, hP⟩ | ⟨stop, rfl, hAllowed⟩
  · exact Or.inl ⟨a, rfl, hP⟩
  · exact Or.inr ⟨mapStop f stop, rfl, stop, hAllowed, rfl⟩

/- The value is the one with the property. -/
theorem of_eq_ok
    {a : α}
    (h : Ends allowed r P)
    (hOk : r = .ok a) :
    P a := by
  rcases h with hReturns | ⟨stop, hStop, _⟩
  · exact hReturns.of_eq_ok hOk
  · rw [hOk] at hStop
    cases hStop

/- The value may be remembered with its property. -/
theorem with_eq
    (h : Ends allowed r P) :
    Ends allowed r fun a => r = .ok a ∧ P a :=
  h.imp_left fun hReturns => hReturns.with_eq

/- The stop is the one that the computation has. -/
theorem with_stop
    (h : Ends allowed r P) :
    Ends (fun stop => r = .error stop ∧ allowed stop) r P := by
  rcases h with hReturns | ⟨stop, hStop, hAllowed⟩
  · exact Or.inl hReturns
  · exact Or.inr ⟨stop, hStop, hStop, hAllowed⟩

end Ends

/- A computation with a value has what is known of its end. -/
theorem Returns.of_ends
    {allowed : Stop ε → Prop}
    {r : Outcome ε α}
    {P Q : α → Prop}
    (h : Returns r Q)
    (hEnds : Ends allowed r P) :
    Returns r P := by
  rcases h with ⟨a, hOk, _⟩
  exact ⟨a, hOk, hEnds.of_eq_ok hOk⟩

/- The first member that stops decides how its family stops. -/
theorem ends_tabulate
    {n : Nat}
    {allowed : Stop ε → Prop}
    {f : Fin n → Outcome ε α}
    {P : Fin n → α → Prop}
    (h : ∀ i, Ends allowed (f i) (P i)) :
    Ends allowed (tabulate f) fun v =>
      ∀ i : Fin n, P i v[i] := by
  induction n with
  | zero => exact (returns_tabulate fun i => i.elim0).ends
  | succ n ih =>
      have hSplit :
          tabulate f =
            tabulate (fun i => f i.castSucc) >>= fun front =>
              f (Fin.last n) >>= fun last =>
                .ok (front.push last) :=
        Vector.ofFnM_succ
      rcases ih fun i => h i.castSucc with
        ⟨front, hOk, hP⟩ | ⟨stop, hStop, hAllowed⟩
      · rcases h (Fin.last n) with
          ⟨last, hLast, hPLast⟩ | ⟨stop, hStop, hAllowed⟩
        · refine (returns_tabulate fun i => ?_).ends
          induction i using Fin.lastCases with
          | last => exact ⟨last, hLast, hPLast⟩
          | cast i =>
              exact ⟨front[i],
                (tabulate_eq_ok_iff _ _).1 hOk i, hP i⟩
        · refine Or.inr ⟨stop, ?_, hAllowed⟩
          rw [hSplit, hOk, hStop]
          rfl
      · refine Or.inr ⟨stop, ?_, hAllowed⟩
        rw [hSplit, hStop]
        rfl

/-
  The computation returns, unless a sampler in it spends all
  its candidates.
-/
abbrev Yields
    (r : Outcome ε α)
    (P : α → Prop) : Prop :=
  Ends (· = .exhausted) r P

/- The computation returns or refuses its input. -/
abbrev Decides
    (r : Outcome ε α)
    (P : α → Prop) : Prop :=
  Ends (∃ cause, · = .error cause) r P

/- The computation returns, or stops without an overflow. -/
abbrev NoOverflow
    (r : Outcome ε α)
    (P : α → Prop) : Prop :=
  Ends (· ≠ .overflow) r P

/- No other stop occurs. -/
theorem Ends.ne_error
    {allowed : Stop ε → Prop}
    {r : Outcome ε α}
    {P : α → Prop}
    {stop : Stop ε}
    (h : Ends allowed r P)
    (hStop : ¬ allowed stop) :
    r ≠ .error stop := by
  rintro rfl
  rcases h with ⟨a, hOk, _⟩ | ⟨stop', hSame, hAllowed⟩
  · cases hOk
  · cases hSame
    exact hStop hAllowed

/- A sampler that gives up has not left a word. -/
theorem Yields.noOverflow
    {r : Outcome ε α}
    {P : α → Prop}
    (h : Yields r P) :
    NoOverflow r P := by
  refine Ends.weaken h ?_
  rintro stop rfl
  exact nofun

/- Nor has a check that refuses. -/
theorem Decides.noOverflow
    {r : Outcome ε α}
    {P : α → Prop}
    (h : Decides r P) :
    NoOverflow r P := by
  refine Ends.weaken h ?_
  rintro stop ⟨cause, rfl⟩
  exact nofun

/- The one stop that is never allowed. -/
theorem NoOverflow.ne_overflow
    {r : Outcome ε α}
    {P : α → Prop}
    (h : NoOverflow r P) :
    r ≠ .error .overflow :=
  Ends.ne_error h fun hStop => hStop rfl

/- A requirement that need not be satisfied. -/
theorem require_decides
    (condition : Bool)
    (cause : ε) :
    Decides (require condition cause) fun _ =>
      condition = true := by
  cases condition with
  | false => exact Or.inr ⟨.error cause, rfl, cause, rfl⟩
  | true => exact Or.inl (returns_ok rfl)

end Outcome

end LatticeSignature
