import LatticeSignature.Outcome
import LatticeSignature.ParameterSet
import LatticeSignature.Stream.Backend

/-
  The operations of the scheme report what they do.  A report
  lists the events of a call beside its outcome, so that a
  call that is refused reports, too.

  Main declarations:
    * `Event`
    * `Event.line`
    * `Report`
    * `Report.mapOutcome`
-/

------------------------------------------------------------
-- Events and Reports
------------------------------------------------------------

namespace LatticeSignature

/- What an operation reports. -/
inductive Event where
  | generating (p : ParameterSet) (b : Backend)
  | signing (p : ParameterSet) (b : Backend)
  | verifying (p : ParameterSet) (b : Backend)
  | signed (p : ParameterSet) (attempts : Nat)
deriving DecidableEq, Repr

namespace Event

/- The line that an operation begins with. -/
def entryLine
    (p : ParameterSet)
    (b : Backend)
    (activity : String) : String :=
  "DEBUG " ++ p.name ++ " " ++ activity
    ++ " (" ++ b.name ++ " backend)"

/- The line of an event. -/
def line : Event → String
  | .generating p b => entryLine p b "key generation"
  | .signing p b => entryLine p b "signing"
  | .verifying p b => entryLine p b "verification"
  | .signed p attempts =>
      "TRACE " ++ p.name
        ++ s!" signature after {attempts} attempt(s)"

end Event

/- The events of a call, in order, and its outcome. -/
structure Report (ε α : Type) where
  events : List Event
  outcome : Outcome ε α

namespace Report

variable {ε δ α β : Type}

/- A report of a call that did not begin. -/
def silent
    (outcome : Outcome ε α) : Report ε α :=
  ⟨[], outcome⟩

/- Continue with the outcome and keep the events. -/
def mapOutcome
    (f : Outcome ε α → Outcome δ β)
    (r : Report ε α) : Report δ β :=
  ⟨r.events, f r.outcome⟩

end Report

end LatticeSignature
