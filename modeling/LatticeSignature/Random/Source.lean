import LatticeSignature.Random.Generator

/-
  Where random bytes come from: a deterministic generator, a
  fixed supply, or a source that always fails.  A request that
  fails leaves its source as it was.

  Main declarations:
    * `RandomSource`
    * `RandomSource.fill`
-/

------------------------------------------------------------
-- Sources
------------------------------------------------------------

namespace LatticeSignature

/- A source of random bytes. -/
inductive RandomSource where
  | generator (state : Generator)
  | supply (bytes : Bytes)
  | failing (reason : String)

namespace RandomSource

/-
  Fill `count` bytes, or tell why the source cannot.  A
  failing source fails for no bytes, too.
-/
def fill
    (source : RandomSource)
    (count : Nat) :
    Except String (Vector UInt8 count × RandomSource) :=
  match source with
  | .generator state =>
      .ok
        (⟨(state.request count).1.toArray, by
            rw [List.size_toArray, state.length_request]⟩,
          .generator (state.request count).2)
  | .supply bytes =>
      if hEnough : count ≤ bytes.length then
        .ok
          (⟨(bytes.take count).toArray,
              by simp [Nat.min_eq_left hEnough]⟩,
            .supply (bytes.drop count))
      else
        .error "out of bytes"
  | .failing reason => .error reason

end RandomSource

end LatticeSignature
