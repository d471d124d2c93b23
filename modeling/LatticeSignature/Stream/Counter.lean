import LatticeSignature.Aes.Cipher
import LatticeSignature.Stream.Source

/-
  The cipher in counter mode as a byte source.  The counter
  blocks hold a nonce and a block number.

  Main declarations:
    * `CounterStream`
    * `CounterStream.counterBlock`
    * `CounterStream.start`
    * `CounterStream.next`
-/

------------------------------------------------------------
-- Counter Blocks
------------------------------------------------------------

namespace LatticeSignature

/-
  A key, a nonce, the number of the block to encrypt next, and
  the bytes of the block before that are still unread.
-/
structure CounterStream where
  schedule : Aes.KeySchedule
  nonce : UInt16
  number : UInt32
  unread : Bytes

namespace CounterStream

/-
  The nonce with its low byte first, ten zero bytes, and the
  block number with its high byte first.
-/
def counterBlock
    (nonce : UInt16)
    (number : UInt32) : Aes.Block :=
  #v[nonce.toUInt8, (nonce >>> 8).toUInt8,
     0, 0, 0, 0, 0, 0, 0, 0, 0, 0,
     (number >>> 24).toUInt8, (number >>> 16).toUInt8,
     (number >>> 8).toUInt8, number.toUInt8]

/- The stream of a key and a nonce. -/
def start
    (key : Aes.Key)
    (nonce : UInt16) : CounterStream :=
  ⟨Aes.expandKey key, nonce, 0, []⟩

/-
  The next byte; a block is encrypted when none is unread.
  Block numbers wrap silently: after `2^32` blocks the stream
  starts again, where a counter mode that checks for the end
  of its numbers would refuse to go on.
-/
def next
    (s : CounterStream) : UInt8 × CounterStream :=
  match s.unread with
  | b :: rest => (b, ⟨s.schedule, s.nonce, s.number, rest⟩)
  | [] =>
      let block :=
        Aes.encrypt s.schedule (counterBlock s.nonce s.number)
      (block.head,
        ⟨s.schedule, s.nonce, s.number + 1, block.toList.tail⟩)

instance : ByteSource CounterStream where
  next := next

end CounterStream

end LatticeSignature
