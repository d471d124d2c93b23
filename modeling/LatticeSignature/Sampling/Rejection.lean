import LatticeSignature.Outcome

/-
  Rejection sampling draws from a source until enough values
  are accepted.  The number of draws is bounded, so that every
  sampler ends.

  Main declarations:
    * `Sampling.maxDraws`
    * `Sampling.accepted`
    * `Sampling.collect`
    * `Sampling.collect_eq`
    * `Sampling.collectVector`
    * `Sampling.map_toList_collectVector`
-/

------------------------------------------------------------
-- Draws
------------------------------------------------------------

namespace LatticeSignature

namespace Sampling

variable {ε σ β : Type}

/- The number of draws after which a sampler gives up. -/
def maxDraws : Nat :=
  1099511627776

/- The values that a number of draws accept, in order. -/
def accepted
    (draw : σ → List β × σ) : Nat → σ → List β
  | 0, _ => []
  | draws + 1, s =>
      (draw s).1 ++ accepted draw draws (draw s).2

/-
  The first `wanted` accepted values.  A draw may accept any
  number of values; those beyond the last one that is wanted
  are dropped.
-/
def collect
    (draw : σ → List β × σ) :
    (draws wanted : Nat) → σ → Outcome ε (List β)
  | _, 0, _ => .ok []
  | 0, _ + 1, _ => .error .exhausted
  | draws + 1, wanted + 1, s => do
      let (values, s) := draw s
      let taken := values.take (wanted + 1)
      let rest ←
        collect draw draws (wanted + 1 - taken.length) s
      return taken ++ rest

------------------------------------------------------------
-- Laws
------------------------------------------------------------

/- Sampling ends exactly when enough values are accepted. -/
theorem collect_eq
    (draw : σ → List β × σ)
    (draws wanted : Nat)
    (s : σ) :
    (collect draw draws wanted s : Outcome ε (List β)) =
      if wanted ≤ (accepted draw draws s).length then
        .ok ((accepted draw draws s).take wanted)
      else
        .error .exhausted := by
  induction draws generalizing wanted s with
  | zero =>
      cases wanted <;> simp [collect, accepted]
  | succ draws ih =>
      cases wanted with
      | zero => simp [collect]
      | succ wanted =>
          have hCount :
              wanted + 1 - min (wanted + 1) (draw s).1.length =
                wanted + 1 - (draw s).1.length := by
            omega
          simp only [collect, ih, accepted, List.length_append,
            List.length_take, List.take_append, hCount]
          by_cases hEnough :
              wanted + 1 ≤
                (draw s).1.length
                  + (accepted draw draws (draw s).2).length
          · have hRest :
                wanted + 1 - (draw s).1.length ≤
                  (accepted draw draws (draw s).2).length := by
              omega
            simp only [hEnough, hRest, if_true]
            rfl
          · have hRest :
                ¬ wanted + 1 - (draw s).1.length ≤
                  (accepted draw draws (draw s).2).length := by
              omega
            simp only [hEnough, hRest, if_false]
            rfl

theorem length_of_collect_eq_ok
    (draw : σ → List β × σ)
    (draws wanted : Nat)
    (s : σ)
    (values : List β)
    (hOk :
      (collect draw draws wanted s : Outcome ε (List β)) =
        .ok values) :
    values.length = wanted := by
  rw [collect_eq] at hOk
  split at hOk
  · rename_i hEnough
    cases hOk
    simp [Nat.min_eq_left hEnough]
  · cases hOk

/- The first `wanted` accepted values, as a vector. -/
def collectVector
    (draw : σ → List β × σ)
    (draws wanted : Nat)
    (s : σ) : Outcome ε (Vector β wanted) :=
  match hOk :
    (collect draw draws wanted s : Outcome ε (List β)) with
  | .ok values =>
      .ok ⟨values.toArray, by
        simpa using
          length_of_collect_eq_ok draw draws wanted s values hOk⟩
  | .error stop => .error stop

/- The vector of a sampler holds the collected values. -/
theorem map_toList_collectVector
    (draw : σ → List β × σ)
    (draws wanted : Nat)
    (s : σ) :
    Vector.toList <$>
        (collectVector draw draws wanted s
          : Outcome ε (Vector β wanted)) =
      collect draw draws wanted s := by
  unfold collectVector
  split
  · rename_i values hOk
    exact hOk.symm
  · rename_i stop hStop
    exact hStop.symm

end Sampling

end LatticeSignature
