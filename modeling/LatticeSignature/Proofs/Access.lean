import LatticeSignature.Encoding.Sections
import LatticeSignature.Proofs.Outcome

/-
  Computations that read and write byte strings by index, and
  that assume conditions on the values that they work with.
  An index out of bounds, or a condition that does not hold,
  leaves such a computation without any outcome, which is apart
  from all the ways to stop.

  Main declarations:
    * `Access`
    * `Access.assuming`, `Access.expect`
    * `Access.byteAt`, `Access.slice`, `Access.putByte`
    * `Access.entryAt`, `Access.putEntry`
    * `Access.ofList`
    * `Access.Runs`
    * `Access.Runs.bind`, `Access.Runs.bind_ends`
    * `Access.runs_tabulate`
    * `Access.Follows`, `Access.Follows.bind_runs`
-/

------------------------------------------------------------
-- Accesses by Index
------------------------------------------------------------

namespace LatticeSignature

open Outcome

/-
  An outcome, or none after an index out of bounds or a
  condition that does not hold.
-/
abbrev Access (ε α : Type) :=
  ExceptT (Stop ε) Option α

namespace Access

variable {ε α β : Type}

/- A computation without accesses and conditions. -/
def ofOutcome
    (r : Outcome ε α) : Access ε α :=
  ExceptT.mk (some r)

/- A value that has to be there. -/
def expect
    (value : Option α) : Access ε α :=
  ExceptT.lift value

/- A computation that relies on a condition. -/
def assuming
    (condition : Prop)
    [Decidable condition]
    (r : Outcome ε α) : Access ε α :=
  if condition then
    ofOutcome r
  else
    expect none

/- The byte at an index. -/
def byteAt
    (bytes : Bytes)
    (i : Nat) : Access ε UInt8 :=
  expect bytes[i]?

/- The bytes from one index up to another one. -/
def slice
    (bytes : Bytes)
    (start stop : Nat) : Access ε Bytes :=
  if start ≤ stop ∧ stop ≤ bytes.length then
    pure (Encoding.part bytes start (stop - start))
  else
    expect none

/- Replace the byte at an index. -/
def putByte
    (bytes : Bytes)
    (i : Nat)
    (b : UInt8) : Access ε Bytes :=
  if i < bytes.length then
    pure (bytes.set i b)
  else
    expect none

/- The entry at an index. -/
def entryAt
    {n : Nat}
    (v : Vector α n)
    (i : Nat) : Access ε α :=
  expect v[i]?

/- Replace the entry at an index. -/
def putEntry
    {n : Nat}
    (v : Vector α n)
    (i : Nat)
    (a : α) : Access ε (Vector α n) :=
  if hBound : i < n then
    pure (v.set i a hBound)
  else
    expect none

/- The vector with the entries of a list of its length. -/
def ofList
    (n : Nat)
    (entries : List α) : Access ε (Vector α n) :=
  if hLength : entries.length = n then
    pure ⟨entries.toArray, by simpa using hLength⟩
  else
    expect none

/- Evaluate a family in index order. -/
def tabulate
    {n : Nat}
    (f : Fin n → Access ε α) : Access ε (Vector α n) :=
  Vector.ofFnM f

------------------------------------------------------------
-- Runs in Bounds
------------------------------------------------------------

/-
  All indices are in bounds, all conditions hold, and the
  outcome is the given one.
-/
def Runs
    (x : Access ε α)
    (r : Outcome ε α) : Prop :=
  x.run = some r

/- Without accesses nothing can be out of bounds. -/
theorem runs_ofOutcome
    (r : Outcome ε α) :
    Runs (ofOutcome r) r :=
  rfl

/- A condition that holds is no obstacle. -/
theorem runs_assuming
    {condition : Prop}
    [Decidable condition]
    (h : condition)
    (r : Outcome ε α) :
    Runs (assuming condition r) r := by
  unfold assuming
  rw [if_pos h]
  exact runs_ofOutcome r

/- A value is there at once. -/
theorem runs_pure
    (a : α) :
    Runs (pure a : Access ε α) (.ok a) :=
  rfl

/- A value that is there is found. -/
theorem runs_expect
    {value : Option α}
    {a : α}
    (h : value = some a) :
    Runs (expect value : Access ε α) (.ok a) := by
  subst h
  rfl

/- An index below the length is in bounds. -/
theorem runs_byteAt
    {bytes : Bytes}
    {i : Nat}
    (h : i < bytes.length) :
    Runs (byteAt bytes i : Access ε UInt8) (.ok bytes[i]) :=
  runs_expect (List.getElem?_eq_getElem h)

/- Both ends of a slice have to be in bounds and in order. -/
theorem runs_slice
    {bytes : Bytes}
    {start stop : Nat}
    (hOrder : start ≤ stop)
    (hBound : stop ≤ bytes.length) :
    Runs (slice bytes start stop : Access ε Bytes)
      (.ok (Encoding.part bytes start (stop - start))) := by
  unfold slice
  rw [if_pos ⟨hOrder, hBound⟩]
  exact runs_pure _

/- A slice that is given by its start and its size. -/
theorem runs_slice_add
    {bytes : Bytes}
    {start size : Nat}
    (hBound : start + size ≤ bytes.length) :
    Runs (slice bytes start (start + size) : Access ε Bytes)
      (.ok (Encoding.part bytes start size)) := by
  have hSlice :=
    runs_slice (ε := ε) (Nat.le_add_right start size) hBound
  rw [Nat.add_sub_cancel_left] at hSlice
  exact hSlice

/- A slice that takes what is left. -/
theorem runs_slice_to_end
    {bytes : Bytes}
    {start size : Nat}
    (hEnd : bytes.length = start + size) :
    Runs (slice bytes start bytes.length : Access ε Bytes)
      (.ok (Encoding.part bytes start size)) := by
  have hSlice :=
    runs_slice_add (ε := ε) (Nat.le_of_eq hEnd.symm)
  rw [← hEnd] at hSlice
  exact hSlice

/- A requirement that is satisfied. -/
theorem runs_require
    {condition : Bool}
    (h : condition = true)
    (cause : ε) :
    Runs (ofOutcome (require condition cause)) (.ok ()) := by
  subst h
  exact runs_ofOutcome _

/- A byte is replaced below the length only. -/
theorem runs_putByte
    {bytes : Bytes}
    {i : Nat}
    (b : UInt8)
    (h : i < bytes.length) :
    Runs (putByte bytes i b : Access ε Bytes)
      (.ok (bytes.set i b)) := by
  unfold putByte
  rw [if_pos h]
  exact runs_pure _

/- The length of a vector is known without looking at it. -/
theorem runs_entryAt
    {n i : Nat}
    (v : Vector α n)
    (h : i < n) :
    Runs (entryAt v i : Access ε α) (.ok v[i]) :=
  runs_expect (Vector.getElem?_eq_getElem h)

/- An entry is replaced below the length only. -/
theorem runs_putEntry
    {n i : Nat}
    (v : Vector α n)
    (a : α)
    (h : i < n) :
    Runs (putEntry v i a : Access ε (Vector α n))
      (.ok (v.set i a h)) := by
  unfold putEntry
  rw [dif_pos h]
  exact runs_pure _

/- A list of the right length is taken as a vector. -/
theorem runs_ofList
    {n : Nat}
    {entries : List α}
    (hLength : entries.length = n) :
    Runs (ofList n entries : Access ε (Vector α n))
      (.ok ⟨entries.toArray, by simpa using hLength⟩) := by
  unfold ofList
  rw [dif_pos hLength]
  exact runs_pure _

/-
  A run goes on in bounds, where only the values of its first
  part have to be considered.
-/
theorem Runs.bind
    {x : Access ε α}
    {r : Outcome ε α}
    {f : α → Access ε β}
    {g : α → Outcome ε β}
    (h : Runs x r)
    (hNext : ∀ a, r = .ok a → Runs (f a) (g a)) :
    Runs (x >>= f) (r >>= g) := by
  unfold Runs at h
  change (x.run >>= ExceptT.bindCont f) = _
  rw [h]
  cases r with
  | ok a => exact hNext a rfl
  | error stop => rfl

/- The values of the first part have a known property. -/
theorem Runs.bind_ends
    {allowed : Stop ε → Prop}
    {P : α → Prop}
    {x : Access ε α}
    {r : Outcome ε α}
    {f : α → Access ε β}
    {g : α → Outcome ε β}
    (h : Runs x r)
    (hEnds : Ends allowed r P)
    (hNext : ∀ a, P a → Runs (f a) (g a)) :
    Runs (x >>= f) (r >>= g) :=
  h.bind fun a hOk => hNext a (hEnds.of_eq_ok hOk)

/- The first part never stops. -/
theorem Runs.bind_returns
    {P : α → Prop}
    {x : Access ε α}
    {r : Outcome ε α}
    {f : α → Access ε β}
    {g : α → Outcome ε β}
    (h : Runs x r)
    (hReturns : Returns r P)
    (hNext : ∀ a, P a → Runs (f a) (g a)) :
    Runs (x >>= f) (r >>= g) :=
  h.bind fun a hOk => hNext a (hReturns.of_eq_ok hOk)

/- The outcome may be given in another form. -/
theorem Runs.congr
    {x : Access ε α}
    {r r' : Outcome ε α}
    (h : Runs x r)
    (hSame : r = r') :
    Runs x r' :=
  h.trans (congrArg some hSame)

/- A run that begins with a value is that of the rest. -/
theorem Runs.ok_bind
    {x : Access ε α}
    {a : α}
    {f : α → Access ε β}
    {r : Outcome ε β}
    (h : Runs x (.ok a))
    (hNext : Runs (f a) r) :
    Runs (x >>= f) r := by
  refine h.bind (g := fun _ => r) ?_
  rintro a' hSame
  cases hSame
  exact hNext

/- A stop in bounds is the stop of the whole. -/
theorem Runs.error_bind
    {x : Access ε α}
    {stop : Stop ε}
    (h : Runs x (.error stop))
    (f : α → Access ε β) :
    Runs (x >>= f) (.error stop) :=
  h.bind (g := fun _ => .error stop) fun _ hSame => nomatch hSame

/- A requirement that is not satisfied ends the run. -/
theorem runs_require_of_false
    {condition : Bool}
    (h : condition = false)
    (cause : ε)
    (f : Unit → Access ε α) :
    Runs (ofOutcome (require condition cause) >>= f)
      (fail cause) := by
  subst h
  exact Runs.error_bind (runs_ofOutcome _) f

/- A family runs in bounds when each of its members does. -/
theorem runs_tabulate
    {n : Nat}
    {f : Fin n → Access ε α}
    {g : Fin n → Outcome ε α}
    (h : ∀ i, Runs (f i) (g i)) :
    Runs (tabulate f) (Outcome.tabulate g) := by
  induction n with
  | zero =>
      unfold tabulate Outcome.tabulate
      rw [Vector.ofFnM_zero, Vector.ofFnM_zero]
      exact runs_pure _
  | succ n ih =>
      unfold tabulate Outcome.tabulate
      rw [Vector.ofFnM_succ, Vector.ofFnM_succ]
      refine (ih fun i => h i.castSucc).bind ?_
      intro front _
      refine (h (Fin.last n)).bind ?_
      intro last _
      exact runs_pure _

------------------------------------------------------------
-- Runs on Other Data
------------------------------------------------------------

/-
  The computation stops as another one does, or its value
  corresponds to the value there.
-/
def Follows
    (R : α → β → Prop)
    (x : Access ε α)
    (r : Outcome ε β) : Prop :=
  (∃ a b, Runs x (.ok a) ∧ r = .ok b ∧ R a b)
    ∨ ∃ stop, Runs x (.error stop) ∧ r = .error stop

/- Values that correspond follow each other. -/
theorem Follows.of_ok
    {R : α → β → Prop}
    {x : Access ε α}
    {a : α}
    {b : β}
    (h : Runs x (.ok a))
    (hValue : R a b) :
    Follows R x (.ok b) :=
  Or.inl ⟨a, b, h, rfl, hValue⟩

/- A first part that only reads is left out there. -/
theorem Follows.ok_bind
    {γ : Type}
    {R : γ → β → Prop}
    {x : Access ε α}
    {a : α}
    {f : α → Access ε γ}
    {r : Outcome ε β}
    (h : Runs x (.ok a))
    (hNext : Follows R (f a) r) :
    Follows R (x >>= f) r := by
  rcases hNext with ⟨c, b, hRun, rfl, hValue⟩ | ⟨stop, hRun, rfl⟩
  · exact Or.inl ⟨c, b, h.ok_bind hRun, rfl, hValue⟩
  · exact Or.inr ⟨stop, h.ok_bind hRun, rfl⟩

/- The value there may be put into another form. -/
theorem Follows.map_right
    {γ : Type}
    {R : α → β → Prop}
    {S : α → γ → Prop}
    {x : Access ε α}
    {r : Outcome ε β}
    {g : β → γ}
    (h : Follows R x r)
    (hValue : ∀ a b, R a b → S a (g b)) :
    Follows S x (r >>= fun b => .ok (g b)) := by
  rcases h with ⟨a, b, hRun, rfl, hR⟩ | ⟨stop, hRun, rfl⟩
  · exact Or.inl ⟨a, g b, hRun, rfl, hValue a b hR⟩
  · exact Or.inr ⟨stop, hRun, rfl⟩

/- What follows corresponding values is a run of its own. -/
theorem Follows.bind_runs
    {γ : Type}
    {R : α → β → Prop}
    {x : Access ε α}
    {r : Outcome ε β}
    {f : α → Access ε γ}
    {g : β → Outcome ε γ}
    (h : Follows R x r)
    (hNext : ∀ a b, R a b → Runs (f a) (g b)) :
    Runs (x >>= f) (r >>= g) := by
  rcases h with ⟨a, b, hRun, rfl, hValue⟩ | ⟨stop, hRun, rfl⟩
  · exact hRun.ok_bind (hNext a b hValue)
  · exact hRun.error_bind f

end Access

end LatticeSignature
