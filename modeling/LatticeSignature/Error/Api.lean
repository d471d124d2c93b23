import LatticeSignature.Error.Scheme

/-
  The causes that callers of keys and signatures see.  The
  causes of the inner layers are sorted into them.

  Main declarations:
    * `ApiError`
    * `ApiError.message`
    * `ApiError.detail?`
    * `ApiError.isInvalidSignature`
    * `ApiError.ofPrimitive`
    * `ApiError.ofScheme`
-/

------------------------------------------------------------
-- Causes
------------------------------------------------------------

namespace LatticeSignature

/- Why a request on keys, messages or signatures is refused. -/
inductive ApiError where
  | invalidKey (context detail : String)
  | invalidSignature (context detail : String)
  | invalidLength (context : String) (expected actual : Nat)
  | invalidParameter (context detail : String)
  | randomGeneration (context detail : String)
  | other (context detail : String)
deriving DecidableEq, Repr

namespace ApiError

/-
  The text that reports a cause.  The detail of a refused
  signature is left out.
-/
def message : ApiError → String
  | .invalidKey context detail =>
      s!"Invalid key: {context}: {detail}"
  | .invalidSignature context _ =>
      s!"Invalid signature: {context}"
  | .invalidLength context expected actual =>
      s!"{context}: invalid length " ++
        s!"(expected {expected}, got {actual})"
  | .invalidParameter context detail =>
      s!"{context}: {detail}"
  | .randomGeneration context detail =>
      s!"Random generation error: {context}: {detail}"
  | .other context detail =>
      s!"{context}: {detail}"

/- The detail of a cause; a wrong length has none. -/
def detail? : ApiError → Option String
  | .invalidKey _ detail => some detail
  | .invalidSignature _ detail => some detail
  | .invalidLength _ _ _ => none
  | .invalidParameter _ detail => some detail
  | .randomGeneration _ detail => some detail
  | .other _ detail => some detail

/- Whether a signature was rejected or malformed. -/
def isInvalidSignature : ApiError → Bool
  | .invalidSignature _ _ => true
  | _ => false

/- The cause that callers see for a primitive one. -/
def ofPrimitive : PrimitiveError → ApiError
  | .parameter name reason => .invalidParameter name reason
  | .length context expected actual =>
      .invalidLength context expected actual
  | .processing operation details => .other operation details

/- The cause that callers see for one of the scheme. -/
def ofScheme : SchemeError → ApiError
  | .contextTooLong length =>
      .invalidParameter
        "context"
        s!"{length} bytes exceeds the 255 byte limit"
  | .invalidKeySize expected actual =>
      .invalidLength "key" expected actual
  | .invalidSignatureSize expected actual =>
      .invalidLength "signature" expected actual
  | .invalidKey reason => .invalidKey "secret key" reason
  | .verification algorithm => .invalidSignature algorithm ""
  | .deserialization reason =>
      .invalidSignature "deserialization" reason
  | .randomness reason => .randomGeneration "sign" reason
  | .primitive cause => ofPrimitive cause

/- Run a step of the scheme on behalf of a caller. -/
def lift
    {α : Type}
    (r : Outcome SchemeError α) : Outcome ApiError α :=
  r.mapError ofScheme

end ApiError

end LatticeSignature
