import LatticeSignature.Proofs.Outcome
import LatticeSignature.Scheme.Message

/-
  A message has a digest in every context that fits its length
  byte, and in no other one.

  Main declarations:
    * `Scheme.messageDigest_eq_ok`
    * `Scheme.messageDigest_eq_fail`
-/

------------------------------------------------------------
-- Digests
------------------------------------------------------------

namespace LatticeSignature

namespace Scheme

open Outcome

variable {context : Bytes}

/-
  A context of at most 255 bytes is framed, and the frame is
  hashed.
-/
theorem messageDigest_eq_ok
    (tr message : Bytes)
    (hContext : context.length ≤ 255) :
    messageDigest tr context message =
      .ok (Keccak.shake256 (frame tr context message) 64) := by
  have hFits : decide (context.length ≤ maxContextBytes) = true :=
    decide_eq_true hContext
  rw [messageDigest, require_bind hFits]
  rfl

/- The length of a longer context does not fit into its byte. -/
theorem messageDigest_eq_fail
    (tr message : Bytes)
    (hContext : ¬ context.length ≤ 255) :
    messageDigest tr context message =
      fail (.contextTooLong context.length) := by
  have hLong :
      decide (context.length ≤ maxContextBytes) = false :=
    decide_eq_false hContext
  rw [messageDigest, hLong]
  rfl

end Scheme

end LatticeSignature
