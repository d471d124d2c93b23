import LatticeSignature.Error.Scheme
import LatticeSignature.Keccak.Sponge
import LatticeSignature.ParameterSet

/-
  What is hashed of public keys and messages.  The frame of a
  message holds the length of its context, so that context and
  message can be told apart.

  Main declarations:
    * `Scheme.keyDigest`
    * `Scheme.frame`
    * `Scheme.messageDigest`
-/

------------------------------------------------------------
-- Digests
------------------------------------------------------------

namespace LatticeSignature

namespace Scheme

/- The digest of a public key. -/
def keyDigest
    (publicKey : Bytes) : Vector UInt8 64 :=
  Keccak.digest publicKey 64

/- The bytes that are hashed for a message in a context. -/
def frame
    (tr context message : Bytes) : Bytes :=
  tr ++ [0, UInt8.ofNat context.length] ++ context ++ message

/-
  The digest of a message.  A context that does not fit its
  length byte is refused.
-/
def messageDigest
    (tr context message : Bytes) :
    Outcome SchemeError Bytes := do
  Outcome.require
    (context.length ≤ maxContextBytes)
    (.contextTooLong context.length)
  return Keccak.shake256 (frame tr context message) digestBytes

end Scheme

end LatticeSignature
