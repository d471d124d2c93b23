import LatticeSignature.Bytes

/-
  Byte strings as text: an array of decimal numbers.  Reading
  allows blanks between the parts of the array; writing has
  one compact form and one with a space after each comma.

  Main declarations:
    * `ByteText.State`, `ByteText.step`
    * `ByteText.parse?`
    * `ByteText.compact`, `ByteText.spaced`
-/

------------------------------------------------------------
-- Reading and Writing
------------------------------------------------------------

namespace LatticeSignature

namespace ByteText

/- The characters that may stand between parts of an array. -/
def isBlank
    (c : Char) : Bool :=
  c == ' ' || c == '\t' || c == '\n' || c == '\r'

/- The value of a decimal digit. -/
def digit?
    (c : Char) : Option Nat :=
  if c.isDigit then some (c.toNat - '0'.toNat) else none

/-
  What has been read: nothing but blanks, the bracket that
  opens the array, part of a number, a number and blanks, a
  comma, or the bracket that closes the array.
-/
inductive State where
  | before
  | opened
  | number (value : Nat)
  | separated
  | continued
  | closed
deriving DecidableEq, Repr

/- The byte of a number that is complete. -/
def complete
    (bytes : Bytes)
    (value : Nat) : Bytes :=
  UInt8.ofNat value :: bytes

/- Read the end of a number, or one more digit. -/
def stepNumber
    (value : Nat)
    (bytes : Bytes)
    (c : Char) : Option (State × Bytes) :=
  if isBlank c then
    some (.separated, complete bytes value)
  else if c = ',' then
    some (.continued, complete bytes value)
  else if c = ']' then
    some (.closed, complete bytes value)
  else
    match digit? c with
    | some d =>
        if value ≠ 0 ∧ 10 * value + d < 256 then
          some (.number (10 * value + d), bytes)
        else
          none
    | none => none

/-
  Read one character.  The bytes that are complete are kept in
  reverse.  A number has no digit after a leading zero and
  does not exceed 255.
-/
def step
    (s : State × Bytes)
    (c : Char) : Option (State × Bytes) :=
  let (state, bytes) := s
  match state with
  | .number value => stepNumber value bytes c
  | .before =>
      if isBlank c then some s
      else if c = '[' then some (.opened, bytes)
      else none
  | .opened =>
      if isBlank c then some s
      else if c = ']' then some (.closed, bytes)
      else (digit? c).map fun d => (.number d, bytes)
  | .separated =>
      if isBlank c then some s
      else if c = ',' then some (.continued, bytes)
      else if c = ']' then some (.closed, bytes)
      else none
  | .continued =>
      if isBlank c then some s
      else (digit? c).map fun d => (.number d, bytes)
  | .closed => if isBlank c then some s else none

/- The byte string of a text, if the text is an array. -/
def parse?
    (text : String) : Option Bytes :=
  match text.toList.foldlM step (.before, []) with
  | some (.closed, bytes) => some bytes.reverse
  | _ => none

/- The array with a text between its numbers. -/
def render
    (separator : String)
    (bytes : Bytes) : String :=
  "[" ++ separator.intercalate
    (bytes.map fun b => toString b.toNat) ++ "]"

/- The array without blanks. -/
def compact
    (bytes : Bytes) : String :=
  render "," bytes

/- The array with a space after each comma. -/
def spaced
    (bytes : Bytes) : String :=
  render ", " bytes

end ByteText

end LatticeSignature
