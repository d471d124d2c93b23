import LatticeSignature.Error.Primitive
import LatticeSignature.Keccak.Sponge

/-
  An extendable-output function with separate steps: it
  absorbs until it is finished or first squeezed, and absorbs
  again only after a reset.

  Main declarations:
    * `Xof`
    * `Xof.update`
    * `Xof.finish`
    * `Xof.squeeze`
    * `Xof.generate`
    * `Xof.generateFromParts`
-/

------------------------------------------------------------
-- States and Steps
------------------------------------------------------------

namespace LatticeSignature

open Keccak

/- An instance of the function, in one of its two phases. -/
inductive Xof where
  | absorbing (sponge : Absorber rate256)
  | squeezing (sponge : Squeezer rate256)

namespace Xof

/- The security level in bits. -/
def securityLevel : Nat :=
  256

/- An instance that has absorbed nothing. -/
def start : Xof :=
  .absorbing Absorber.start

/- The output that would come next. -/
def output : Xof → Squeezer rate256
  | .absorbing sponge => sponge.finish
  | .squeezing sponge => sponge

/- Absorb more of the message. -/
def update
    (x : Xof)
    (bytes : Bytes) : Outcome PrimitiveError Xof :=
  match x with
  | .absorbing sponge => .ok (.absorbing (sponge.absorb bytes))
  | .squeezing _ =>
      Outcome.fail
        (.processing
          "SHAKE256 update"
          "cannot absorb after squeezing has started")

/- End the message.  A second end changes nothing. -/
def finish
    (x : Xof) : Xof :=
  .squeezing x.output

/- Squeeze `count` bytes, and end the message before. -/
def squeeze
    (x : Xof)
    (count : Nat) : Bytes × Xof :=
  let (bytes, sponge) := ByteSource.read count x.output
  (bytes, .squeezing sponge)

/- The first `count` bytes for one message; `count` is not 0. -/
def generate
    (message : Bytes)
    (count : Nat) : Outcome PrimitiveError Bytes := do
  PrimitiveError.checkParameter
    (0 < count)
    "output_length"
    "XOF output length must be greater than 0"
  let x ← start.update message
  return (x.squeeze count).1

/- The first `count` bytes for a message in parts. -/
def generateFromParts
    (parts : List Bytes)
    (count : Nat) : Outcome PrimitiveError Bytes := do
  let x ← parts.foldlM update start
  return (x.squeeze count).1

end Xof

end LatticeSignature
