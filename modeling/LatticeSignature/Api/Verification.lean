import LatticeSignature.Api.Values
import LatticeSignature.Scheme.Verification

/-
  Verifying signatures, and opening messages that follow their
  signatures.

  Main declarations:
    * `PublicKey.verify`
    * `PublicKey.openSigned`
-/

------------------------------------------------------------
-- Verification
------------------------------------------------------------

namespace LatticeSignature

namespace PublicKey

/- Verify a signature of a message in a context. -/
def verify
    (p : ParameterSet)
    (b : Backend)
    (key : PublicKey)
    (message context : Bytes)
    (signature : Signature) : Report ApiError Unit :=
  (Scheme.verify p b key.bytes message context
    signature.bytes).mapOutcome ApiError.lift

/-
  The message behind a signature.  Nothing of it is given back
  unless the signature is valid.
-/
def openSigned
    (p : ParameterSet)
    (b : Backend)
    (key : PublicKey)
    (signed context : Bytes) : Report ApiError Bytes :=
  if signed.length < p.signatureBytes then
    .silent
      (Outcome.fail (.ofScheme (.verification p.name)))
  else
    let signature := signed.take p.signatureBytes
    let message := signed.drop p.signatureBytes
    (key.verify p b message context ⟨signature⟩).mapOutcome
      fun r => (fun _ => message) <$> r

end PublicKey

end LatticeSignature
