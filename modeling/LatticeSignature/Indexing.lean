/-
  Conventions that all modules share.  A vector has an entry
  for every number below its length, and an index of this kind
  needs no further proof.  Powers and sums of natural numbers
  are those of the language.

  Main declarations:
    * `vectorEntry`
    * `getElem_index`
    * `Powers`, `Sums`
-/

------------------------------------------------------------
-- Entries of Vectors
------------------------------------------------------------

namespace LatticeSignature

universe u

variable {α : Type u}
variable {n : Nat}

instance vectorEntry :
    GetElem (Vector α n) (Fin n) α fun _ _ => True where
  getElem v i _ := getElem v i.val i.isLt

/- The bound of a number below the length is its own. -/
@[simp] theorem getElem_index
    (v : Vector α n)
    (i : Fin n) :
    v[i] = getElem v i.val i.isLt :=
  rfl

------------------------------------------------------------
-- Powers and Sums
------------------------------------------------------------

/-
  Where one of these names is open, powers, or sums of lists,
  are those of the language, whatever is imported.  Definitions
  then mean the same before and after a library brings in
  powers and sums of its own.
-/
namespace Powers

attribute [scoped instance (high)] instPowNat

end Powers

namespace Sums

attribute [scoped instance (high)] Zero.ofOfNat0

end Sums

end LatticeSignature
