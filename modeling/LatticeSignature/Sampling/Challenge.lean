import LatticeSignature.Keccak.Sponge
import LatticeSignature.Ring.Poly
import LatticeSignature.Sampling.Rejection
import LatticeSignature.Stream.BlockReader

/-
  A challenge has a fixed number of coefficients `1` and `-1`
  and is zero elsewhere.  Positions come from a shuffle that
  is steered by a byte source, signs from its first bytes.

  Main declarations:
    * `Sampling.drawPosition`
    * `Sampling.place`
    * `Sampling.challengeOf`
    * `Sampling.challenge`
-/

------------------------------------------------------------
-- Challenges
------------------------------------------------------------

namespace LatticeSignature

namespace Sampling

variable {ε σ : Type}
variable [ByteSource σ]

/- The next byte that is not above a limit. -/
def drawPosition
    (limit : Nat) : Nat → σ → Outcome ε (UInt8 × σ)
  | 0, _ => .error .exhausted
  | draws + 1, s =>
      let (b, s) := ByteSource.next s
      if b.toNat ≤ limit then
        .ok (b, s)
      else
        drawPosition limit draws s

/- The coefficient of a sign bit. -/
def signOf
    (signs : Nat) : Int :=
  1 - 2 * (signs % 2 : Nat)

/-
  Fill the last `count` places.  The coefficient at a drawn
  position moves to the next of these places, and the position
  takes the next sign.
-/
def place :
    (count : Nat) →
      (signs : Nat) →
      Poly →
      σ →
      Outcome ε Poly
  | 0, _, filled, _ => .ok filled
  | count + 1, signs, filled, s => do
      let here := Fin.ofNat degree (degree - 1 - count)
      let (b, s) ← drawPosition here.val maxDraws s
      let moved := filled.set here.val filled[b.toFin] here.isLt
      let signed :=
        moved.set b.toNat (signOf signs) b.toNat_lt
      place count (signs / 2) signed s

/- The challenge that a byte source steers. -/
def challengeOf
    (tau : Nat)
    (s : σ) : Outcome ε Poly :=
  let (signBytes, s) := ByteSource.read 8 s
  place tau (Bytes.toNatLE signBytes) Poly.zero s

/- The challenge of a seed. -/
def challenge
    (p : ParameterSet)
    (seed : Bytes) : Outcome ε Poly :=
  challengeOf
    p.tau
    (BlockReader.ofSource
      (Keccak.extend Keccak.rate256 seed)
      Keccak.rate256)

end Sampling

end LatticeSignature
