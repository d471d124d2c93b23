import LatticeSignature.Api.ByteText
import LatticeSignature.Encoding.Keys
import LatticeSignature.Encoding.Signature
import LatticeSignature.Error.Api
import LatticeSignature.Scheme.Signing

/-
  Keys and signatures as callers hold them: byte strings that
  were checked when they were made.  The size of a byte string
  tells its parameter set.

  Main declarations:
    * `PublicKey`, `PublicKey.ofBytes`
    * `SecretKey`, `SecretKey.ofBytes`
    * `Signature`, `Signature.ofBytes`
    * `PublicKey.deserialize`, `SecretKey.deserialize`
    * `Signature.deserialize`
    * `PublicKey.description`, `SecretKey.description`
    * `Signature.description`
-/

------------------------------------------------------------
-- Parameter Sets by Size
------------------------------------------------------------

namespace LatticeSignature

namespace ParameterSet

/- All parameter sets. -/
def all : List ParameterSet :=
  [.mldsa44, .mldsa65, .mldsa87]

/- The parameter set for which a size is the given one. -/
def withSize?
    (size : ParameterSet → Nat)
    (bytes : Nat) : Option ParameterSet :=
  all.find? fun p => size p == bytes

end ParameterSet

------------------------------------------------------------
-- Keys and Signatures
------------------------------------------------------------

/- A public key. -/
structure PublicKey where
  bytes : Bytes
deriving DecidableEq

namespace PublicKey

/- The public key of a byte string of a known size. -/
def ofBytes
    (bytes : Bytes) : Outcome SchemeError PublicKey :=
  match
    ParameterSet.withSize?
      ParameterSet.publicKeyBytes
      bytes.length
  with
  | some _ => .ok ⟨bytes⟩
  | none =>
      Outcome.fail (.deserialization "unknown public key size")

/- The public key of a byte string for one parameter set. -/
def deserialize
    (p : ParameterSet)
    (bytes : Bytes) : Outcome ApiError PublicKey := do
  let _ ← ApiError.lift (Encoding.unpackPublicKey p bytes)
  return ⟨bytes⟩

/- The text that stands for a public key. -/
def description
    (key : PublicKey) : String :=
  "MlDsaPublicKey(" ++ ByteText.spaced key.bytes ++ ")"

end PublicKey

/- A secret key. -/
structure SecretKey where
  bytes : Bytes
deriving DecidableEq

namespace SecretKey

/-
  The secret key of a byte string of a known size, whose
  secret coefficients are in range.
-/
def ofBytes
    (bytes : Bytes) : Outcome SchemeError SecretKey :=
  match
    ParameterSet.withSize?
      ParameterSet.secretKeyBytes
      bytes.length
  with
  | some p => do
      let _ ← Encoding.unpackSecretKey p bytes
      return ⟨bytes⟩
  | none =>
      Outcome.fail (.deserialization "unknown secret key size")

/- The secret key of a byte string for one parameter set. -/
def deserialize
    (p : ParameterSet)
    (bytes : Bytes) : Outcome ApiError SecretKey := do
  let _ ← ApiError.lift (Encoding.unpackSecretKey p bytes)
  return ⟨bytes⟩

/- The text that stands for a secret key; it shows no byte. -/
def description
    (key : SecretKey) : String :=
  s!"MlDsaSecretKey({key.bytes.length} bytes, [REDACTED])"

end SecretKey

/- A signature. -/
structure Signature where
  bytes : Bytes
deriving DecidableEq

namespace Signature

/-
  Refuse a byte string that no message, context and key could
  make valid.
-/
def check
    (p : ParameterSet)
    (bytes : Bytes) : Outcome SchemeError Unit := do
  let parts ← Encoding.unpackSignature p bytes
  Outcome.require
    (!parts.z.exceedsNorm (Scheme.responseBound p))
    (.deserialization "response vector out of range")

/- The signature of a byte string of a known size. -/
def ofBytes
    (bytes : Bytes) : Outcome SchemeError Signature :=
  match
    ParameterSet.withSize?
      ParameterSet.signatureBytes
      bytes.length
  with
  | some p => do
      check p bytes
      return ⟨bytes⟩
  | none =>
      Outcome.fail (.deserialization "unknown signature size")

/- The signature of a byte string for one parameter set. -/
def deserialize
    (p : ParameterSet)
    (bytes : Bytes) : Outcome ApiError Signature := do
  ApiError.lift (check p bytes)
  return ⟨bytes⟩

/- The text that stands for a signature. -/
def description
    (signature : Signature) : String :=
  "MlDsaSignatureData("
    ++ ByteText.spaced signature.bytes ++ ")"

end Signature

end LatticeSignature
