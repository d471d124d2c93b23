import LatticeSignature.Error.Api
import LatticeSignature.Random.Source

/-
  Random bytes that are kept secret, so that their text never
  shows them.

  Main declarations:
    * `SecretBytes`
    * `SecretBytes.draw`
    * `SecretBytes.description`
-/

------------------------------------------------------------
-- Secret Bytes
------------------------------------------------------------

namespace LatticeSignature

/- A secret of a fixed number of bytes. -/
structure SecretBytes (size : Nat) where
  bytes : Vector UInt8 size

namespace SecretBytes

/- Draw a secret from a random source. -/
def draw
    (size : Nat)
    (source : RandomSource) :
    Outcome ApiError (SecretBytes size × RandomSource) :=
  match source.fill size with
  | .ok (bytes, source) => .ok (⟨bytes⟩, source)
  | .error reason =>
      Outcome.fail
        (.randomGeneration "SecretBytes::random" reason)

/- The text that stands for a secret. -/
def description
    {size : Nat}
    (_secret : SecretBytes size) : String :=
  s!"SecretBytes<{size}>[REDACTED]"

end SecretBytes

end LatticeSignature
