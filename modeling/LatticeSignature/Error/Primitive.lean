import LatticeSignature.Outcome

/-
  The causes for which arithmetic, packing, hashing and the
  seeded streams refuse an input, and the checks that raise
  them.

  Main declarations:
    * `PrimitiveError`
    * `PrimitiveError.message`
    * `PrimitiveError.checkParameter`
    * `PrimitiveError.checkLength`
    * `PrimitiveError.checkMinLength`
-/

------------------------------------------------------------
-- Causes and Checks
------------------------------------------------------------

namespace LatticeSignature

/-
  A parameter outside of its domain, data of a wrong length,
  or a step at the wrong time.
-/
inductive PrimitiveError where
  | parameter (name reason : String)
  | length (context : String) (expected actual : Nat)
  | processing (operation details : String)
deriving DecidableEq, Repr

namespace PrimitiveError

/- The text that reports a cause. -/
def message : PrimitiveError → String
  | .parameter name reason =>
      "Invalid parameter '" ++ name ++ "': " ++ reason
  | .length context expected actual =>
      s!"Invalid length for {context}: " ++
        s!"expected {expected}, got {actual}"
  | .processing operation details =>
      s!"Processing error in {operation}: {details}"

/- Refuse a parameter that does not meet its condition. -/
def checkParameter
    (condition : Bool)
    (name reason : String) : Outcome PrimitiveError Unit :=
  Outcome.require condition (.parameter name reason)

/- Refuse every length but one. -/
def checkLength
    (context : String)
    (expected actual : Nat) : Outcome PrimitiveError Unit :=
  Outcome.require
    (actual == expected)
    (.length context expected actual)

/- Refuse lengths below a least one. -/
def checkMinLength
    (context : String)
    (least actual : Nat) : Outcome PrimitiveError Unit :=
  Outcome.require
    (least ≤ actual)
    (.length context least actual)

end PrimitiveError

end LatticeSignature
