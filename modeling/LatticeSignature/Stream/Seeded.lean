import LatticeSignature.Error.Primitive
import LatticeSignature.Keccak.Sponge
import LatticeSignature.Stream.Counter

/-
  A seed and a nonce determine an endless byte string, for
  each of three kinds of streams.

  Main declarations:
    * `StreamKind`
    * `StreamKind.blockBytes`
    * `StreamKind.minSeedBytes`
    * `SeededStream`
    * `SeededStream.start`
-/

------------------------------------------------------------
-- Streams
------------------------------------------------------------

namespace LatticeSignature

/- How a stream expands its seed. -/
inductive StreamKind where
  | shake128
  | shake256
  | aes256
deriving DecidableEq, Repr

namespace StreamKind

/- The number of bytes that a stream makes at once. -/
def blockBytes : StreamKind → Nat
  | .shake128 => Keccak.rate128
  | .shake256 => Keccak.rate256
  | .aes256 => 64

/- The least number of bytes of a seed. -/
def minSeedBytes : StreamKind → Nat
  | .shake128 => 0
  | .shake256 => 0
  | .aes256 => 32

end StreamKind

/- A stream of one of the kinds. -/
inductive SeededStream where
  | shake128 (sponge : Keccak.Squeezer Keccak.rate128)
  | shake256 (sponge : Keccak.Squeezer Keccak.rate256)
  | aes256 (counter : CounterStream)

namespace SeededStream

/- The bytes of a nonce, low byte first. -/
def nonceBytes
    (nonce : UInt16) : Bytes :=
  Bytes.ofNatLE 2 nonce.toNat

/- The first 32 bytes of a seed that has as many. -/
def keyOfSeed
    (seed : Bytes)
    (hSize : 32 ≤ seed.length) : Aes.Key :=
  ⟨(seed.take 32).toArray, by simp [Nat.min_eq_left hSize]⟩

/- The stream of a seed and a nonce. -/
def start
    (kind : StreamKind)
    (seed : Bytes)
    (nonce : UInt16) : Outcome PrimitiveError SeededStream :=
  match kind with
  | .shake128 =>
      .ok (.shake128
        (Keccak.extend
          Keccak.rate128
          (seed ++ nonceBytes nonce)))
  | .shake256 =>
      .ok (.shake256
        (Keccak.extend
          Keccak.rate256
          (seed ++ nonceBytes nonce)))
  | .aes256 =>
      if hSize : 32 ≤ seed.length then
        .ok (.aes256
          (CounterStream.start (keyOfSeed seed hSize) nonce))
      else
        Outcome.fail
          (.length "AES-256-CTR seed" 32 seed.length)

/- The next byte of a stream. -/
def next : SeededStream → UInt8 × SeededStream
  | .shake128 sponge =>
      let (b, sponge) := ByteSource.next sponge
      (b, .shake128 sponge)
  | .shake256 sponge =>
      let (b, sponge) := ByteSource.next sponge
      (b, .shake256 sponge)
  | .aes256 counter =>
      let (b, counter) := ByteSource.next counter
      (b, .aes256 counter)

instance : ByteSource SeededStream where
  next := next

end SeededStream

end LatticeSignature
