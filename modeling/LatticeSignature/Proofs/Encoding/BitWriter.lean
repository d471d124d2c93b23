import LatticeSignature.Proofs.Encoding.BitStream

/-
  Packing into a buffer.  The fields of a polynomial go into
  an accumulator, and leave it as bytes of the buffer as soon
  as there are eight bits.

  Main declarations:
    * `Buffered`, `Buffered.Leaves`
    * `Writer.flush`, `Writer.append`, `Writer.appendAll`
    * `Writer.Holds`
    * `Writer.flush_leaves`, `Writer.appendAll_leaves`
    * `Packing.packInto`
    * `Packing.packInto_leaves`, `Packing.packInto_refuses`
-/

------------------------------------------------------------
-- Computations on a Buffer
------------------------------------------------------------

namespace LatticeSignature

open Outcome Access

/-
  An outcome and the buffer that it leaves, also where it is a
  stop; or none after an index out of bounds.
-/
abbrev Buffered (ε α : Type) :=
  ExceptT (Stop ε) (StateT Bytes Option) α

namespace Buffered

variable {ε α β : Type}

/- A computation that does not see the buffer. -/
def ofAccess
    (x : Access ε α) : Buffered ε α :=
  ExceptT.mk fun buffer => x.run.map fun r => (r, buffer)

/- The number of bytes of the buffer. -/
def size : Buffered ε Nat :=
  ExceptT.mk fun buffer => some (.ok buffer.length, buffer)

/- Replace the byte at an index. -/
def put
    (i : Nat)
    (b : UInt8) : Buffered ε Unit :=
  ExceptT.mk fun buffer =>
    if i < buffer.length then
      some (.ok (), buffer.set i b)
    else
      none

/-
  All indices are in bounds, and the computation has the given
  outcome and leaves the given buffer.
-/
def Leaves
    (x : Buffered ε α)
    (before : Bytes)
    (r : Outcome ε α)
    (after : Bytes) : Prop :=
  x.run before = some (r, after)

theorem leaves_ofAccess
    {x : Access ε α}
    {r : Outcome ε α}
    (h : Runs x r)
    (buffer : Bytes) :
    Leaves (ofAccess x) buffer r buffer := by
  unfold Runs at h
  change x.run.map _ = _
  rw [h]
  rfl

theorem leaves_size
    (buffer : Bytes) :
    Leaves (size : Buffered ε Nat) buffer (.ok buffer.length)
      buffer :=
  rfl

theorem leaves_pure
    (a : α)
    (buffer : Bytes) :
    Leaves (pure a : Buffered ε α) buffer (.ok a) buffer :=
  rfl

theorem leaves_put
    {i : Nat}
    {buffer : Bytes}
    (b : UInt8)
    (h : i < buffer.length) :
    Leaves (put i b : Buffered ε Unit) buffer (.ok ())
      (buffer.set i b) :=
  if_pos h

/- What follows a value works on the buffer that was left. -/
theorem Leaves.ok_bind
    {x : Buffered ε α}
    {a : α}
    {f : α → Buffered ε β}
    {r : Outcome ε β}
    {before between after : Bytes}
    (h : Leaves x before (.ok a) between)
    (hNext : Leaves (f a) between r after) :
    Leaves (x >>= f) before r after := by
  unfold Leaves at h
  change
    (x.run before >>= fun out =>
      ExceptT.bindCont f out.1 out.2) = _
  rw [h]
  exact hNext

/- Nothing follows a stop. -/
theorem Leaves.error_bind
    {x : Buffered ε α}
    {stop : Stop ε}
    {before after : Bytes}
    (h : Leaves x before (.error stop) after)
    (f : α → Buffered ε β) :
    Leaves (x >>= f) before (.error stop) after := by
  unfold Leaves at h
  change
    (x.run before >>= fun out =>
      ExceptT.bindCont f out.1 out.2) = _
  rw [h]
  rfl

end Buffered

------------------------------------------------------------
-- Writers
------------------------------------------------------------

open Buffered

/- The bits that wait, and the place of the next byte. -/
structure Writer where
  pending : Accumulator
  place : Nat

namespace Writer

variable {ε : Type}

/- Write whole bytes as long as there are any. -/
def flush
    (w : Writer) : Buffered ε Writer :=
  if _hByte : 8 ≤ w.pending.count then do
    put w.place w.pending.word.toUInt8
    flush ⟨w.pending.drop 8, w.place + 1⟩
  else
    pure w
termination_by w.pending.count
decreasing_by
  simp only [Accumulator.drop]
  omega

/- Append the low bits of a word. -/
def append
    (width : Nat)
    (c : Int)
    (w : Writer) : Buffered ε Writer := do
  ofAccess (assuming (w.pending.count < 64) (.ok ()))
  flush ⟨w.pending.push width (Packing.lowBits width c), w.place⟩

/- Append the low bits of all words. -/
def appendAll
    (width : Nat) : List Int → Writer → Buffered ε Writer
  | [], w => pure w
  | c :: rest, w => do
      let w ← append width c w
      appendAll width rest w

/-
  The bits are those of the bytes before the place, and those
  that wait.
-/
structure Holds
    (w : Writer)
    (buffer : Bytes)
    (s : Bits) : Prop where
  clear : w.pending.Clear
  room : w.place ≤ buffer.length
  bits :
    Bits.ofBytes (buffer.take w.place) ++ w.pending.bits = s

theorem Holds.length_eq
    {w : Writer}
    {buffer : Bytes}
    {s : Bits}
    (h : w.Holds buffer s) :
    s.length = 8 * w.place + w.pending.count := by
  rw [← h.bits, List.length_append, Bits.length_ofBytes,
    List.length_take, Nat.min_eq_left h.room]
  exact congrArg (8 * w.place + ·) (Bits.length_ofNat _ _)

theorem holds_empty
    (buffer : Bytes) :
    Holds ⟨Accumulator.empty, 0⟩ buffer [] where
  clear := Accumulator.clear_empty
  room := Nat.zero_le _
  bits := rfl

/- A byte that is written was the first one that waited. -/
theorem Holds.put
    {w : Writer}
    {buffer : Bytes}
    {s : Bits}
    (h : w.Holds buffer s)
    (hByte : 8 ≤ w.pending.count)
    (hPlace : w.place < buffer.length) :
    Holds ⟨w.pending.drop 8, w.place + 1⟩
      (buffer.set w.place w.pending.word.toUInt8) s := by
  rcases Accumulator.drop_bits h.clear hByte (by decide) with
    ⟨hClear, hBits⟩
  have hTake :
      (buffer.set w.place w.pending.word.toUInt8).take
          (w.place + 1) =
        buffer.take w.place ++ [w.pending.word.toUInt8] := by
    rw [List.take_add_one, List.take_set_of_le (le_refl _),
      List.getElem?_set_self hPlace]
    rfl
  have hOne :
      Bits.ofBytes [w.pending.word.toUInt8] =
        Bits.ofNat 8 w.pending.word.toNat := by
    rw [← Bits.ofNat_mod, ← UInt64.toNat_toUInt8]
    exact List.append_nil _
  refine ⟨hClear, ?_, ?_⟩
  · rw [List.length_set]
    exact hPlace
  · rw [hTake, Bits.ofBytes_append, hOne, List.append_assoc,
      ← hBits]
    exact h.bits

/- Flushing moves bits, and less than a byte is left. -/
theorem flush_leaves
    {w : Writer}
    {buffer : Bytes}
    {s : Bits}
    (h : w.Holds buffer s)
    (hRoom : s.length ≤ 8 * buffer.length) :
    ∃ (w' : Writer) (buffer' : Bytes),
      Leaves (flush w : Buffered ε Writer) buffer (.ok w') buffer'
        ∧ buffer'.length = buffer.length
        ∧ w'.Holds buffer' s
        ∧ w'.pending.count < 8 := by
  -- Each byte takes eight bits from those that wait.
  induction hCount : w.pending.count using Nat.strong_induction_on
    generalizing w buffer with
  | _ count ih =>
      unfold flush
      by_cases hByte : 8 ≤ w.pending.count
      · have hPlace : w.place < buffer.length := by
          have hLength := h.length_eq
          omega
        rcases ih (count - 8) (by omega) (h.put hByte hPlace)
            (by rw [List.length_set]; exact hRoom)
            (by rw [← hCount]; rfl) with
          ⟨w', buffer', hLeaves, hSize, hHolds, hFew⟩
        rw [List.length_set] at hSize
        rw [dif_pos hByte]
        exact
          ⟨w', buffer', (leaves_put _ hPlace).ok_bind hLeaves,
            hSize, hHolds, hFew⟩
      · rw [dif_neg hByte]
        exact ⟨w, buffer, leaves_pure w buffer, rfl, h, by omega⟩

/- A word adds its field to the bits. -/
theorem append_leaves
    {width : Nat}
    (c : Int)
    {w : Writer}
    {buffer : Bytes}
    {s : Bits}
    (hWidth : Packing.IsWidth width)
    (h : w.Holds buffer s)
    (hFew : w.pending.count < 8)
    (hRoom : s.length + width ≤ 8 * buffer.length) :
    ∃ (w' : Writer) (buffer' : Bytes),
      Leaves (append width c w : Buffered ε Writer) buffer
          (.ok w') buffer'
        ∧ buffer'.length = buffer.length
        ∧ w'.Holds buffer'
          (s ++ Bits.ofNat width (Packing.field width c))
        ∧ w'.pending.count < 8 := by
  rcases hWidth with ⟨hPos, hMax⟩
  unfold Packing.maxWidth at hMax
  have hField := Packing.toNat_lowBits c (by omega : width ≤ 32)
  have hLow :
      (Packing.lowBits width c).toNat < 2 ^ width := by
    rw [hField, ← Packing.field_mod]
    exact Nat.mod_lt _ (Nat.two_pow_pos width)
  rcases Accumulator.push_bits h.clear hLow hPos (by omega) with
    ⟨hClear, hBits⟩
  have hHolds :
      Holds ⟨w.pending.push width (Packing.lowBits width c),
          w.place⟩ buffer
        (s ++ Bits.ofNat width (Packing.field width c)) := by
    refine ⟨hClear, h.room, ?_⟩
    rw [hBits, hField, ← List.append_assoc, h.bits]
  have hAll :
      (s ++ Bits.ofNat width (Packing.field width c)).length
        ≤ 8 * buffer.length := by
    rw [List.length_append, Bits.length_ofNat]
    exact hRoom
  rcases flush_leaves (ε := ε) hHolds hAll with
    ⟨w', buffer', hLeaves, hRest⟩
  have hShift : w.pending.count < 64 := by omega
  exact
    ⟨w', buffer',
      (leaves_ofAccess (runs_assuming hShift _) buffer).ok_bind
        hLeaves,
      hRest⟩

/- All words add their fields, one after the other. -/
theorem appendAll_leaves
    {width : Nat}
    (words : List Int)
    {w : Writer}
    {buffer : Bytes}
    {s : Bits}
    (hWidth : Packing.IsWidth width)
    (h : w.Holds buffer s)
    (hFew : w.pending.count < 8)
    (hRoom :
      s.length + words.length * width ≤ 8 * buffer.length) :
    ∃ (w' : Writer) (buffer' : Bytes),
      Leaves (appendAll width words w : Buffered ε Writer) buffer
          (.ok w') buffer'
        ∧ buffer'.length = buffer.length
        ∧ w'.Holds buffer'
          (s ++ (words.map (Packing.field width)).flatMap
            (Bits.ofNat width))
        ∧ w'.pending.count < 8 := by
  induction words generalizing w buffer s with
  | nil =>
      refine ⟨w, buffer, leaves_pure w buffer, rfl, ?_, hFew⟩
      rw [List.map_nil, List.flatMap_nil, List.append_nil]
      exact h
  | cons c rest ih =>
      rw [List.length_cons, Nat.succ_mul] at hRoom
      rcases append_leaves (ε := ε) c hWidth h hFew (by omega)
        with ⟨u, between, hFirst, hSize, hHolds, hLeft⟩
      have hRest :
          (s ++ Bits.ofNat width (Packing.field width c)).length
              + rest.length * width ≤
            8 * between.length := by
        rw [List.length_append, Bits.length_ofNat, hSize]
        omega
      rcases ih hHolds hLeft hRest with
        ⟨w', after, hLast, hSize', hHolds', hLeft'⟩
      refine
        ⟨w', after, hFirst.ok_bind hLast, hSize'.trans hSize,
          ?_, hLeft'⟩
      rw [List.map_cons, List.flatMap_cons, ← List.append_assoc]
      exact hHolds'

end Writer

------------------------------------------------------------
-- Polynomials in a Buffer
------------------------------------------------------------

namespace Packing

/-
  Pack the low bits of every coefficient into a buffer, with
  the bits that are left at the end in a byte of their own.
-/
def packInto
    (width : Nat)
    (p : Poly) : Buffered PrimitiveError Unit := do
  let space ← size
  ofAccess (ofOutcome (checkSpace width space))
  let w ←
    Writer.appendAll width p.toList ⟨Accumulator.empty, 0⟩
  if 0 < w.pending.count then
    put w.place w.pending.word.toUInt8
  else
    pure ()

/- A buffer of the right size is filled with the packed bytes. -/
theorem packInto_leaves
    {width : Nat}
    {buffer : Bytes}
    (p : Poly)
    (hWidth : IsWidth width)
    (hSize : buffer.length = packedBytes width) :
    Leaves (packInto width p) buffer (.ok ())
      (bytes width p) := by
  have hSpace : 8 * buffer.length = degree * width := by
    rw [hSize, Nat.mul_comm]
    exact packedBytes_mul_eight width
  have hCheck :
      (checkSpace width buffer.length
        : Outcome PrimitiveError Unit) = .ok () := by
    rw [hSize]
    exact checkSpace_eq_ok hWidth
  have hRoom :
      ([] : Bits).length + p.toList.length * width
        ≤ 8 * buffer.length := by
    rw [hSpace, Vector.length_toList, List.length_nil,
      Nat.zero_add]
  rcases Writer.appendAll_leaves (ε := PrimitiveError) p.toList
      hWidth (Writer.holds_empty buffer) (by decide) hRoom with
    ⟨w, after, hLeaves, hSame, hHolds, hFew⟩
  rw [List.nil_append] at hHolds
  have hBits : w.Holds after (bits width p) := hHolds
  have hLength := hBits.length_eq
  rw [length_bits, ← hSpace] at hLength
  -- All bits together fill whole bytes, so none of them waits.
  have hNone : w.pending.count = 0 := by omega
  have hEnd : after.length ≤ w.place := by omega
  have hAfter : after = bytes width p := by
    have hAll := hBits.bits
    rw [List.take_of_length_le hEnd, Accumulator.bits, hNone,
      Bits.ofNat, List.append_nil] at hAll
    rw [bytes, ← hAll, Bits.toBytes_ofBytes]
  refine (leaves_size buffer).ok_bind ?_
  rw [hCheck]
  refine (leaves_ofAccess (runs_ofOutcome _) buffer).ok_bind ?_
  refine hLeaves.ok_bind ?_
  rw [if_neg (by omega), hAfter]
  exact leaves_pure () _

/- A refusal leaves the buffer as it was. -/
theorem packInto_refuses
    {width : Nat}
    {buffer : Bytes}
    {cause : PrimitiveError}
    (p : Poly)
    (hRefused : checkSpace width buffer.length = fail cause) :
    Leaves (packInto width p) buffer (fail cause) buffer := by
  refine (leaves_size buffer).ok_bind ?_
  rw [hRefused]
  exact
    (leaves_ofAccess (runs_ofOutcome _) buffer).error_bind _

end Packing

end LatticeSignature
