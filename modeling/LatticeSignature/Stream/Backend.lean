import LatticeSignature.Stream.Seeded

/-
  A backend says which streams expand the public matrix and
  which ones expand the secrets.

  Main declarations:
    * `Backend`
    * `Backend.matrixStream`
    * `Backend.secretStream`
-/

------------------------------------------------------------
-- Backends
------------------------------------------------------------

namespace LatticeSignature

/- The two families of streams. -/
inductive Backend where
  | shake
  | aes
deriving DecidableEq, Repr

namespace Backend

/- The name of the backend. -/
def name : Backend → String
  | .shake => "SHAKE"
  | .aes => "AES"

/- The streams of the public matrix. -/
def matrixStream : Backend → StreamKind
  | .shake => .shake128
  | .aes => .aes256

/- The streams of secret vectors and masks. -/
def secretStream : Backend → StreamKind
  | .shake => .shake256
  | .aes => .aes256

end Backend

end LatticeSignature
