import LatticeSignature.ParameterSet

/-
  Bounds that hold for all parameter sets.

  Main declarations:
    * `ParameterSet.columns_le`
    * `ParameterSet.eta_le`, `ParameterSet.tau_le`
    * `ParameterSet.beta_le`, `ParameterSet.tau_mul_eta`
    * `ParameterSet.gamma1_le`, `ParameterSet.gamma2_le`
-/

------------------------------------------------------------
-- Bounds
------------------------------------------------------------

namespace LatticeSignature

namespace ParameterSet

variable (p : ParameterSet)

/- No product of a matrix row has more than eight terms. -/
theorem columns_le :
    p.columns ≤ 8 := by
  cases p <;> decide

/- The magnitude of secret coefficients. -/
theorem eta_le :
    (p.eta : Int) ≤ 4 := by
  cases p <;> decide

/- A challenge has at most 60 coefficients that are not zero. -/
theorem tau_le :
    (p.tau : Int) ≤ 60 := by
  cases p <;> decide

/- No product with a challenge is larger than this. -/
theorem beta_le :
    (p.beta : Int) ≤ 196 := by
  cases p <;> decide

/- The largest sum of as many secret coefficients. -/
theorem tau_mul_eta :
    (p.tau : Int) * p.eta = p.beta :=
  (Int.natCast_mul p.tau p.eta).symm

/- Masks have at most 20 bits. -/
theorem gamma1_le :
    (p.gamma1 : Int) ≤ 524288 := by
  cases p <;> decide

/- Half of the width of a bucket, in the coarser division. -/
theorem gamma2_le :
    p.gamma2 ≤ 261888 := by
  cases p <;> decide

end ParameterSet

end LatticeSignature
