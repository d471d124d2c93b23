import LatticeSignature.Stream.Source

/-
  A reader fetches whole blocks from a source and hands out
  their bytes one at a time.  The size of the blocks changes
  no byte.

  Main declarations:
    * `BlockReader`
    * `BlockReader.next`
    * `BlockReader.byte_eq`
    * `BlockReader.byte_ofSource`
-/

------------------------------------------------------------
-- Readers
------------------------------------------------------------

namespace LatticeSignature

/- A source, the size of a block, and the rest of a block. -/
structure BlockReader (σ : Type) where
  source : σ
  blockBytes : Nat
  unread : Bytes

namespace BlockReader

variable {σ : Type}
variable [ByteSource σ]

/- A reader that has fetched nothing. -/
def ofSource
    (source : σ)
    (blockBytes : Nat) : BlockReader σ :=
  ⟨source, blockBytes, []⟩

/-
  The next byte.  A block is fetched when none is unread; it
  has at least one byte.
-/
def next
    (r : BlockReader σ) : UInt8 × BlockReader σ :=
  match r.unread with
  | b :: rest => (b, ⟨r.source, r.blockBytes, rest⟩)
  | [] =>
      let (b, source) := ByteSource.next r.source
      let (rest, source) :=
        ByteSource.read (r.blockBytes - 1) source
      (b, ⟨source, r.blockBytes, rest⟩)

instance : ByteSource (BlockReader σ) where
  next := next

/- Unread bytes come first, then those of the source. -/
theorem byte_eq
    (r : BlockReader σ)
    (i : Nat) :
    ByteSource.byte r i =
      (r.unread[i]?).getD
        (ByteSource.byte r.source (i - r.unread.length)) := by
  induction i generalizing r with
  | zero =>
      obtain ⟨source, size, unread⟩ := r
      cases unread <;> rfl
  | succ i ih =>
      obtain ⟨source, size, unread⟩ := r
      cases unread with
      | cons b rest =>
          refine (ih ⟨source, size, rest⟩).trans ?_
          simp
      | nil =>
          have h :=
            ih ⟨(ByteSource.read (size - 1)
                  (ByteSource.next source).2).2,
                size,
                (ByteSource.read (size - 1)
                  (ByteSource.next source).2).1⟩
          refine h.trans ?_
          simp only [ByteSource.read_fst, ByteSource.read_snd,
            List.length_map, List.length_range, List.getElem?_map,
            List.length_nil, List.getElem?_nil, Option.getD_none]
          by_cases hLt : i < size - 1
          · rw [List.getElem?_range hLt]
            rfl
          · have hSplit :
                i = (size - 1) + (i - (size - 1)) := by
              omega
            have hNone :
                (List.range (size - 1))[i]? = none := by
              simpa using hLt
            simp only [hNone, Option.map_none, Option.getD_none]
            unfold ByteSource.byte
            rw [← ByteSource.after_add, ← hSplit]
            rfl

/- A fresh reader hands out the bytes of its source. -/
theorem byte_ofSource
    (source : σ)
    (blockBytes i : Nat) :
    ByteSource.byte (ofSource source blockBytes) i =
      ByteSource.byte source i := by
  simp [byte_eq, ofSource]

end BlockReader

end LatticeSignature
