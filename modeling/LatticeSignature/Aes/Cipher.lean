import LatticeSignature.Aes.Substitution
import LatticeSignature.Bytes

/-
  The block cipher with keys of 32 bytes.  Byte `r + 4 * c` of
  a block stands in row `r` and column `c`.

  Main declarations:
    * `Aes.Block`, `Aes.Key`
    * `Aes.KeySchedule`
    * `Aes.expandKey`
    * `Aes.encrypt`
-/

------------------------------------------------------------
-- Keys
------------------------------------------------------------

namespace LatticeSignature

namespace Aes

/- A block of 16 bytes. -/
abbrev Block :=
  Vector UInt8 16

/- A key of 32 bytes. -/
abbrev Key :=
  Vector UInt8 32

/- One column of a block. -/
structure Column where
  b₀ : UInt8
  b₁ : UInt8
  b₂ : UInt8
  b₃ : UInt8
deriving DecidableEq, Repr

namespace Column

/- Sum of two columns. -/
def add
    (v w : Column) : Column :=
  ⟨v.b₀ ^^^ w.b₀, v.b₁ ^^^ w.b₁, v.b₂ ^^^ w.b₂, v.b₃ ^^^ w.b₃⟩

/- Substitute every byte. -/
def substitute
    (v : Column) : Column :=
  ⟨Aes.substitute v.b₀, Aes.substitute v.b₁,
    Aes.substitute v.b₂, Aes.substitute v.b₃⟩

/- Move every byte up by one row. -/
def rotate
    (v : Column) : Column :=
  ⟨v.b₁, v.b₂, v.b₃, v.b₀⟩

/- Multiply by the fixed matrix of the cipher. -/
def mix
    (v : Column) : Column :=
  let combine (a b c d : UInt8) : UInt8 :=
    double a ^^^ (double b ^^^ b) ^^^ c ^^^ d
  ⟨combine v.b₀ v.b₁ v.b₂ v.b₃, combine v.b₁ v.b₂ v.b₃ v.b₀,
    combine v.b₂ v.b₃ v.b₀ v.b₁, combine v.b₃ v.b₀ v.b₁ v.b₂⟩

/- The zero column. -/
def zero : Column :=
  ⟨0, 0, 0, 0⟩

end Column

------------------------------------------------------------
-- Key Schedule
------------------------------------------------------------

/- The state of the cipher, by columns. -/
abbrev State :=
  Vector Column 4

/- The round keys, first one first. -/
structure KeySchedule where
  roundKeys : Vector State 15

/- What is added to the column eight places before the next. -/
def scheduleTerm
    (columns : Array Column) : Column :=
  let i := columns.size
  let last := columns.getD (i - 1) Column.zero
  if i % 8 = 0 then
    last.rotate.substitute.add ⟨power 2 (i / 8 - 1), 0, 0, 0⟩
  else if i % 8 = 4 then
    last.substitute
  else
    last

/- Add one column to a key schedule. -/
def extendSchedule
    (columns : Array Column) : Array Column :=
  columns.push
    ((columns.getD (columns.size - 8) Column.zero).add
      (scheduleTerm columns))

/- All columns of the key schedule. -/
def scheduleColumns
    (key : Key) : Array Column :=
  let start : Vector Column 8 :=
    Vector.ofFn fun i =>
      ⟨key[4 * i.val], key[4 * i.val + 1],
        key[4 * i.val + 2], key[4 * i.val + 3]⟩
  Nat.repeat extendSchedule 52 start.toArray

/- The round keys of a key. -/
def expandKey
    (key : Key) : KeySchedule :=
  let columns := scheduleColumns key
  ⟨Vector.ofFn fun round =>
    Vector.ofFn fun c =>
      columns.getD (4 * round.val + c.val) Column.zero⟩

------------------------------------------------------------
-- Rounds
------------------------------------------------------------

/- Add a round key. -/
def addKey
    (roundKey s : State) : State :=
  Vector.ofFn fun c => s[c].add roundKey[c]

/- Substitute all bytes and move row `r` by `r` columns. -/
def substituteAndShift
    (s : State) : State :=
  let column (c : Nat) : Column :=
    s[Fin.ofNat 4 c]
  Vector.ofFn fun c =>
    Column.substitute
      ⟨(column c.val).b₀, (column (c.val + 1)).b₁,
        (column (c.val + 2)).b₂, (column (c.val + 3)).b₃⟩

/- A round in the middle. -/
def middleRound
    (s roundKey : State) : State :=
  addKey roundKey ((substituteAndShift s).map Column.mix)

/- The columns of a block. -/
def State.ofBlock
    (block : Block) : State :=
  Vector.ofFn fun c =>
    ⟨block[4 * c.val], block[4 * c.val + 1],
      block[4 * c.val + 2], block[4 * c.val + 3]⟩

/- The block with the given columns. -/
def State.toBlock
    (s : State) : Block :=
  #v[s[0].b₀, s[0].b₁, s[0].b₂, s[0].b₃,
     s[1].b₀, s[1].b₁, s[1].b₂, s[1].b₃,
     s[2].b₀, s[2].b₁, s[2].b₂, s[2].b₃,
     s[3].b₀, s[3].b₁, s[3].b₂, s[3].b₃]

/- Encrypt a block. -/
def encrypt
    (schedule : KeySchedule)
    (block : Block) : Block :=
  let keys := schedule.roundKeys
  let first := addKey keys[0] (State.ofBlock block)
  let middle :=
    (keys.toList.drop 1).take 13 |>.foldl middleRound first
  State.toBlock (addKey keys[14] (substituteAndShift middle))

end Aes

end LatticeSignature
