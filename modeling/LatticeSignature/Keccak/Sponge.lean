import LatticeSignature.Keccak.Permutation
import LatticeSignature.Stream.Source

/-
  The sponge takes bytes in one at a time and then hands bytes
  out one at a time.  After every `rate` bytes the lanes are
  permuted.

  Main declarations:
    * `Keccak.Absorber`
    * `Keccak.Absorber.absorb`
    * `Keccak.Absorber.absorb_append`
    * `Keccak.Absorber.finish`
    * `Keccak.Squeezer`
    * `Keccak.extend`
    * `Keccak.rate128`, `Keccak.rate256`
    * `Keccak.shake256`, `Keccak.digest`
-/

------------------------------------------------------------
-- Absorbing
------------------------------------------------------------

namespace LatticeSignature

namespace Keccak

/- Add a byte to the lanes at a byte position. -/
def addByte
    (a : Lanes)
    (position : Nat)
    (b : UInt8) : Lanes :=
  if hLane : position / 8 < 25 then
    a.set (position / 8)
      (a[position / 8] ^^^
        (b.toUInt64 <<< UInt64.ofNat (8 * (position % 8))))
  else
    a

/- The byte of the lanes at a byte position. -/
def byteAt
    (a : Lanes)
    (position : Nat) : UInt8 :=
  (laneAt a (position / 8)
    >>> UInt64.ofNat (8 * (position % 8))).toUInt8

/-
  A sponge that takes bytes in.  The position counts the bytes
  that entered since the lanes were last permuted.
-/
structure Absorber (rate : Nat) where
  lanes : Lanes
  position : Nat

namespace Absorber

variable {rate : Nat}

/- The empty sponge. -/
def start : Absorber rate :=
  ⟨Vector.replicate 25 0, 0⟩

/- Take in one byte. -/
def absorbByte
    (s : Absorber rate)
    (b : UInt8) : Absorber rate :=
  let lanes := addByte s.lanes s.position b
  if s.position + 1 = rate then
    ⟨permute lanes, 0⟩
  else
    ⟨lanes, s.position + 1⟩

/- Take in a byte string. -/
def absorb
    (s : Absorber rate)
    (bytes : Bytes) : Absorber rate :=
  bytes.foldl absorbByte s

/- How a message is cut into pieces makes no difference. -/
theorem absorb_append
    (s : Absorber rate)
    (m n : Bytes) :
    s.absorb (m ++ n) = (s.absorb m).absorb n :=
  List.foldl_append

end Absorber

------------------------------------------------------------
-- Squeezing
------------------------------------------------------------

/-
  A sponge that hands bytes out.  The position counts the
  bytes that left since the lanes were last permuted.
-/
structure Squeezer (rate : Nat) where
  lanes : Lanes
  position : Nat

namespace Squeezer

variable {rate : Nat}

/- Hand out one byte. -/
def next
    (s : Squeezer rate) : UInt8 × Squeezer rate :=
  if s.position < rate then
    (byteAt s.lanes s.position, ⟨s.lanes, s.position + 1⟩)
  else
    let lanes := permute s.lanes
    (byteAt lanes 0, ⟨lanes, 1⟩)

instance : ByteSource (Squeezer rate) where
  next := next

end Squeezer

/-
  End the message with the suffix of an extendable output and
  close the block.  No byte of the block is handed out before
  the lanes are permuted.
-/
def Absorber.finish
    {rate : Nat}
    (s : Absorber rate) : Squeezer rate :=
  let suffixed := addByte s.lanes s.position 0x1F
  ⟨addByte suffixed (rate - 1) 0x80, rate⟩

/- The endless output that belongs to a message. -/
def extend
    (rate : Nat)
    (message : Bytes) : Squeezer rate :=
  (Absorber.start.absorb message).finish

/- The rate for security against 128-bit attacks. -/
def rate128 : Nat :=
  168

/- The rate for security against 256-bit attacks. -/
def rate256 : Nat :=
  136

/- The first `count` bytes of the output for 256 bits. -/
def shake256
    (message : Bytes)
    (count : Nat) : Bytes :=
  (ByteSource.read count (extend rate256 message)).1

@[simp] theorem length_shake256
    (message : Bytes)
    (count : Nat) :
    (shake256 message count).length = count :=
  ByteSource.length_read _ _

/- The same bytes as a vector. -/
def digest
    (message : Bytes)
    (count : Nat) : Vector UInt8 count :=
  ⟨(shake256 message count).toArray, by simp⟩

end Keccak

end LatticeSignature
