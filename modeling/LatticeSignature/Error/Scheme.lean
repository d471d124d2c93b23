import LatticeSignature.Error.Primitive

/-
  The causes for which key generation, signing, verification
  and decoding refuse an input.

  Main declarations:
    * `SchemeError`
    * `SchemeError.message`
    * `SchemeError.lift`
-/

------------------------------------------------------------
-- Causes
------------------------------------------------------------

namespace LatticeSignature

/- Why an operation of the signature scheme is refused. -/
inductive SchemeError where
  | contextTooLong (length : Nat)
  | invalidKeySize (expected actual : Nat)
  | invalidSignatureSize (expected actual : Nat)
  | invalidKey (reason : String)
  | verification (algorithm : String)
  | deserialization (reason : String)
  | randomness (reason : String)
  | primitive (cause : PrimitiveError)
deriving DecidableEq, Repr

namespace SchemeError

/- The text that reports a cause. -/
def message : SchemeError → String
  | .contextTooLong length =>
      s!"Context string too long: {length} bytes " ++
        "(maximum 255)"
  | .invalidKeySize expected actual =>
      s!"Invalid key size: expected {expected}, got {actual}"
  | .invalidSignatureSize expected actual =>
      "Invalid signature size: " ++
        s!"expected {expected}, got {actual}"
  | .invalidKey reason =>
      s!"Invalid key: {reason}"
  | .verification algorithm =>
      s!"{algorithm} verification failed"
  | .deserialization reason =>
      s!"Deserialization error: {reason}"
  | .randomness reason =>
      s!"RNG error: {reason}"
  | .primitive cause =>
      "Algorithm error: " ++ cause.message

/- Run a primitive step as a step of the scheme. -/
def lift
    {α : Type}
    (r : Outcome PrimitiveError α) : Outcome SchemeError α :=
  r.mapError .primitive

end SchemeError

end LatticeSignature
