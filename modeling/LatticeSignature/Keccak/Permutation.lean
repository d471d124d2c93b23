import LatticeSignature.Indexing

/-
  The permutation of 25 lanes of 64 bits under the sponge.
  Lane `(x, y)` has index `x + 5 * y`.

  Main declarations:
    * `Keccak.Lanes`
    * `Keccak.theta`
    * `Keccak.rhoPi`
    * `Keccak.chi`
    * `Keccak.permute`
-/

------------------------------------------------------------
-- Lanes and Rounds
------------------------------------------------------------

namespace LatticeSignature

namespace Keccak

/- The state of the permutation. -/
abbrev Lanes :=
  Vector UInt64 25

/- The lane with an index modulo 25. -/
def laneAt
    (a : Lanes)
    (i : Nat) : UInt64 :=
  a[Fin.ofNat 25 i]

/- Move the bits of a lane up and around. -/
def rotate
    (lane : UInt64)
    (places : Nat) : UInt64 :=
  (lane <<< UInt64.ofNat places)
    ||| (lane >>> UInt64.ofNat ((64 - places) % 64))

/- The parity of a column. -/
def columnParity
    (a : Lanes)
    (x : Nat) : UInt64 :=
  laneAt a x ^^^ laneAt a (x + 5) ^^^ laneAt a (x + 10)
    ^^^ laneAt a (x + 15) ^^^ laneAt a (x + 20)

/- Add the parities of two near columns to every lane. -/
def theta
    (a : Lanes) : Lanes :=
  let parities : Vector UInt64 5 :=
    Vector.ofFn fun x => columnParity a x.val
  let parity (x : Nat) : UInt64 :=
    parities[Fin.ofNat 5 x]
  let added : Vector UInt64 5 :=
    Vector.ofFn fun x =>
      parity (x.val + 4) ^^^ rotate (parity (x.val + 1)) 1
  Vector.ofFn fun i =>
    a[i] ^^^ added[Fin.ofNat 5 i.val]

/- The rotations of the lanes, by index. -/
def offsets : Vector Nat 25 :=
  #v[0, 1, 62, 28, 27,
     36, 44, 6, 55, 20,
     3, 10, 43, 25, 39,
     41, 45, 15, 21, 8,
     18, 2, 61, 56, 14]

/-
  Rotate every lane and move lane `(x, y)` to the place
  `(y, 2 * x + 3 * y)`.
-/
def rhoPi
    (a : Lanes) : Lanes :=
  Vector.ofFn fun i =>
    let x := i.val % 5
    let y := i.val / 5
    let source := (x + 3 * y) % 5 + 5 * x
    rotate (laneAt a source) offsets[Fin.ofNat 25 source]

/- Combine every lane with the two that follow in its row. -/
def chi
    (a : Lanes) : Lanes :=
  Vector.ofFn fun i =>
    let x := i.val % 5
    let row := i.val - x
    a[i] ^^^
      (~~~ laneAt a (row + (x + 1) % 5)
        &&& laneAt a (row + (x + 2) % 5))

/- The constants that tell the rounds apart. -/
def roundConstants : List UInt64 :=
  [0x0000000000000001, 0x0000000000008082,
   0x800000000000808A, 0x8000000080008000,
   0x000000000000808B, 0x0000000080000001,
   0x8000000080008081, 0x8000000000008009,
   0x000000000000008A, 0x0000000000000088,
   0x0000000080008009, 0x000000008000000A,
   0x000000008000808B, 0x800000000000008B,
   0x8000000000008089, 0x8000000000008003,
   0x8000000000008002, 0x8000000000000080,
   0x000000000000800A, 0x800000008000000A,
   0x8000000080008081, 0x8000000000008080,
   0x0000000080000001, 0x8000000080008008]

/- Add a round constant to the first lane. -/
def iota
    (constant : UInt64)
    (a : Lanes) : Lanes :=
  a.set 0 (a[0] ^^^ constant)

/- One round. -/
def round
    (a : Lanes)
    (constant : UInt64) : Lanes :=
  iota constant (chi (rhoPi (theta a)))

/- All 24 rounds. -/
def permute
    (a : Lanes) : Lanes :=
  roundConstants.foldl round a

end Keccak

end LatticeSignature
