import LatticeSignature.Keccak.Xof
import LatticeSignature.Proofs.Outcome
import Mathlib.Algebra.BigOperators.Group.List.Basic
import Mathlib.Algebra.Ring.Nat
import Mathlib.Data.List.DropRight

/-
  An instance of the extendable-output function, over all runs
  of its calls.  What a call answers depends on the calls since
  the last reset alone: on the message that they absorb, on
  whether they end it, and on how many bytes they squeeze.

  Main declarations:
    * `Keccak.outputByte`, `Keccak.outputPart`
    * `Xof.Call`, `Xof.call`, `Xof.after`, `Xof.answer`
    * `Xof.sinceReset`
    * `Xof.ended`, `Xof.absorbed`, `Xof.squeezed`
    * `Xof.stateOf`
    * `Xof.call_stateOf`, `Xof.after_eq_stateOf`
    * `Xof.generateFromParts_eq_ok`
    * `Xof.calls_follow_output`
-/

------------------------------------------------------------
-- Endless Output
------------------------------------------------------------

namespace LatticeSignature

open Outcome

namespace Keccak

/- The byte at a position of the endless output for a message. -/
def outputByte
    (message : Bytes)
    (i : Nat) : UInt8 :=
  ByteSource.byte (extend rate256 message) i

/- Some bytes of the endless output for a message. -/
def outputPart
    (message : Bytes)
    (start count : Nat) : Bytes :=
  (List.range count).map fun i => outputByte message (start + i)

/- Reading goes on where the bytes before it end. -/
theorem read_after_extend
    (message : Bytes)
    (start count : Nat) :
    ByteSource.read count
        (ByteSource.after start (extend rate256 message)) =
      (outputPart message start count,
        ByteSource.after (start + count)
          (extend rate256 message)) := by
  apply Prod.ext
  · rw [ByteSource.read_fst]
    apply List.map_congr_left
    intro i _
    unfold outputByte ByteSource.byte
    rw [ByteSource.after_add]
  · rw [ByteSource.read_snd, ByteSource.after_add]

theorem shake256_eq_outputPart
    (message : Bytes)
    (count : Nat) :
    shake256 message count = outputPart message 0 count :=
  congrArg Prod.fst (read_after_extend message 0 count)

end Keccak

------------------------------------------------------------
-- Calls
------------------------------------------------------------

namespace Xof

open Keccak

/- A call on an instance. -/
inductive Call where
  | update (bytes : Bytes)
  | finish
  | squeeze (count : Nat)
  | squeezeVec (count : Nat)
  | reset

/-
  The answer to a call, and the instance after it.  A call that
  is refused leaves the instance as it was.
-/
def call
    (x : Xof) : Call → Outcome PrimitiveError Bytes × Xof
  | .update bytes =>
      match x.update bytes with
      | .ok next => (.ok [], next)
      | .error stop => (.error stop, x)
  | .finish => (.ok [], x.finish)
  | .squeeze count =>
      let (bytes, next) := x.squeeze count
      (.ok bytes, next)
  | .squeezeVec count =>
      let (bytes, next) := x.squeeze count
      (.ok bytes, next)
  | .reset => (.ok [], start)

/- A new instance after some calls. -/
def after
    (calls : List Call) : Xof :=
  calls.foldl (fun x c => (x.call c).2) start

/- The answer to a call that follows other calls. -/
def answer
    (calls : List Call)
    (c : Call) : Outcome PrimitiveError Bytes :=
  ((after calls).call c).1

namespace Call

def isReset : Call → Bool
  | .reset => true
  | _ => false

/- Whether the call ends the message. -/
def ends : Call → Bool
  | .finish | .squeeze _ | .squeezeVec _ => true
  | .update _ | .reset => false

/- What the call adds to the message. -/
def data : Call → Bytes
  | .update bytes => bytes
  | _ => []

/- The number of bytes that the call asks for. -/
def count : Call → Nat
  | .squeeze count | .squeezeVec count => count
  | _ => 0

/- Only calls that end the message ask for bytes. -/
theorem count_eq_zero
    (c : Call)
    (hOpen : c.ends = false) :
    c.count = 0 := by
  cases c <;> first | rfl | cases hOpen

end Call

------------------------------------------------------------
-- Histories
------------------------------------------------------------

/- The calls since the last reset. -/
def sinceReset
    (calls : List Call) : List Call :=
  calls.rtakeWhile fun c => !c.isReset

/- Whether the message has ended since the last reset. -/
def ended
    (calls : List Call) : Bool :=
  (sinceReset calls).any Call.ends

/- The message since the last reset, up to its end. -/
def absorbed
    (calls : List Call) : Bytes :=
  ((sinceReset calls).takeWhile fun c => !c.ends).flatMap Call.data

/- The number of bytes squeezed since the last reset. -/
def squeezed
    (calls : List Call) : Nat :=
  ((sinceReset calls).map Call.count).sum

variable (calls : List Call)

theorem sinceReset_concat
    (c : Call) :
    sinceReset (calls ++ [c]) =
      if c.isReset then [] else sinceReset calls ++ [c] := by
  unfold sinceReset
  rw [List.rtakeWhile_concat]
  cases c.isReset <;> rfl

theorem ended_concat
    (c : Call) :
    ended (calls ++ [c]) =
      (!c.isReset && (ended calls || c.ends)) := by
  unfold ended
  rw [sinceReset_concat]
  cases c.isReset <;> simp

theorem squeezed_concat
    (c : Call) :
    squeezed (calls ++ [c]) =
      if c.isReset then 0 else squeezed calls + c.count := by
  unfold squeezed
  rw [sinceReset_concat]
  cases c.isReset <;> simp

/- Only calls before the end add to the message. -/
theorem absorbed_concat
    (c : Call) :
    absorbed (calls ++ [c]) =
      if c.isReset then
        []
      else if ended calls || c.ends then
        absorbed calls
      else
        absorbed calls ++ c.data := by
  unfold absorbed ended
  rw [sinceReset_concat]
  cases c.isReset with
  | true => rfl
  | false =>
      simp only [Bool.false_eq_true, if_false]
      induction sinceReset calls with
      | nil => cases hEnds : c.ends <;> simp [hEnds]
      | cons first rest ih =>
          cases hFirst : first.ends with
          | true => simp [hFirst]
          | false =>
              simp only [List.cons_append, List.takeWhile_cons,
                hFirst, Bool.not_false, if_true,
                List.flatMap_cons, ih, List.any_cons,
                Bool.false_or]
              split <;> simp

------------------------------------------------------------
-- States
------------------------------------------------------------

/- The instance that belongs to a history. -/
def stateOf : Xof :=
  if ended calls then
    .squeezing
      (ByteSource.after (squeezed calls)
        (extend rate256 (absorbed calls)))
  else
    .absorbing (Absorber.start.absorb (absorbed calls))

/- Nothing is squeezed before the end of the message. -/
theorem squeezed_eq_zero
    (hOpen : ended calls = false) :
    squeezed calls = 0 := by
  unfold ended at hOpen
  unfold squeezed
  apply List.sum_eq_zero
  intro n hn
  rcases List.mem_map.1 hn with ⟨c, hc, rfl⟩
  exact c.count_eq_zero (Bool.eq_false_iff.2
    (List.any_eq_false.1 hOpen c hc))

/- The output that comes next belongs to the message. -/
theorem output_stateOf :
    (stateOf calls).output =
      ByteSource.after (squeezed calls)
        (extend rate256 (absorbed calls)) := by
  unfold stateOf
  cases hEnded : ended calls with
  | true => rfl
  | false =>
      rw [squeezed_eq_zero calls hEnded]
      rfl

/- Squeezing hands out the next bytes of the output. -/
theorem squeeze_stateOf
    (count : Nat) :
    (stateOf calls).squeeze count =
      (outputPart (absorbed calls) (squeezed calls) count,
        .squeezing
          (ByteSource.after (squeezed calls + count)
            (extend rate256 (absorbed calls)))) := by
  rw [squeeze, output_stateOf, read_after_extend]

theorem update_stateOf
    (bytes : Bytes) :
    (stateOf calls).update bytes =
      if ended calls then
        fail
          (.processing
            "SHAKE256 update"
            "cannot absorb after squeezing has started")
      else
        .ok
          (.absorbing
            (Absorber.start.absorb (absorbed calls ++ bytes))) := by
  unfold stateOf
  cases ended calls with
  | true => rfl
  | false =>
      rw [Absorber.absorb_append]
      rfl

/- A call that ends the message moves the output only. -/
theorem stateOf_concat_of_ends
    {c : Call}
    (hEnds : c.ends = true) :
    stateOf (calls ++ [c]) =
      .squeezing
        (ByteSource.after (squeezed calls + c.count)
          (extend rate256 (absorbed calls))) := by
  have hReset : c.isReset = false := by
    cases c <;> first | rfl | cases hEnds
  have hEnded : ended (calls ++ [c]) = true := by
    rw [ended_concat, hReset, hEnds, Bool.or_true]
    rfl
  have hAbsorbed : absorbed (calls ++ [c]) = absorbed calls := by
    rw [absorbed_concat, hReset, hEnds, Bool.or_true]
    rfl
  have hSqueezed :
      squeezed (calls ++ [c]) = squeezed calls + c.count := by
    rw [squeezed_concat, hReset]
    rfl
  rw [stateOf, hEnded, hAbsorbed, hSqueezed, if_pos rfl]

/- An update is part of the message, unless that has ended. -/
theorem stateOf_concat_update
    (bytes : Bytes) :
    stateOf (calls ++ [.update bytes]) =
      if ended calls then
        stateOf calls
      else
        .absorbing
          (Absorber.start.absorb (absorbed calls ++ bytes)) := by
  have hEnded := ended_concat calls (.update bytes)
  have hAbsorbed := absorbed_concat calls (.update bytes)
  have hSqueezed := squeezed_concat calls (.update bytes)
  simp only [Call.isReset, Call.ends, Call.count, Call.data,
    Bool.not_false, Bool.true_and, Bool.or_false,
    Bool.false_eq_true, if_false, Nat.add_zero]
    at hEnded hAbsorbed hSqueezed
  unfold stateOf
  rw [hEnded, hAbsorbed, hSqueezed]
  cases ended calls <;> rfl

/- One more call leads to the state of the longer history. -/
theorem call_stateOf
    (c : Call) :
    ((stateOf calls).call c).2 = stateOf (calls ++ [c]) := by
  cases c with
  | update bytes =>
      rw [call, update_stateOf, stateOf_concat_update]
      cases ended calls <;> rfl
  | finish =>
      rw [stateOf_concat_of_ends calls (c := .finish) rfl]
      exact congrArg squeezing (output_stateOf calls)
  | squeeze count =>
      rw [stateOf_concat_of_ends calls (c := .squeeze count) rfl,
        call, squeeze_stateOf]
      rfl
  | squeezeVec count =>
      rw [stateOf_concat_of_ends calls (c := .squeezeVec count) rfl,
        call, squeeze_stateOf]
      rfl
  | reset =>
      have hSince := sinceReset_concat calls .reset
      change start = _
      rw [stateOf, ended, absorbed, hSince]
      rfl

/- A run leads to the state of its history. -/
theorem after_eq_stateOf :
    after calls = stateOf calls := by
  induction calls using List.reverseRecOn with
  | nil => rfl
  | append_singleton calls c ih =>
      rw [after, List.foldl_append]
      change ((after calls).call c).2 = _
      rw [ih, call_stateOf]

------------------------------------------------------------
-- Answers
------------------------------------------------------------

theorem answer_squeeze
    (count : Nat) :
    answer calls (.squeeze count) =
      .ok
        (outputPart (absorbed calls) (squeezed calls) count) := by
  rw [answer, after_eq_stateOf, call, squeeze_stateOf]

theorem answer_update
    (bytes : Bytes) :
    answer calls (.update bytes) =
      if ended calls then
        fail
          (.processing
            "SHAKE256 update"
            "cannot absorb after squeezing has started")
      else
        .ok [] := by
  rw [answer, after_eq_stateOf, call, update_stateOf]
  cases ended calls <;> rfl

/- A second end of the message changes nothing. -/
theorem after_concat_finish_finish :
    after (calls ++ [.finish, .finish]) =
      after (calls ++ [.finish]) := by
  rw [after, after, List.foldl_append, List.foldl_append]
  rfl

/- A reset leads back to a new instance. -/
theorem after_concat_reset :
    after (calls ++ [.reset]) = after [] := by
  rw [after, List.foldl_append]
  rfl

variable {calls}

/- Equal instances answer later calls equally. -/
theorem answer_append_congr
    {calls' : List Call}
    (hSame : after calls = after calls')
    (rest : List Call)
    (c : Call) :
    answer (calls ++ rest) c = answer (calls' ++ rest) c := by
  unfold after at hSame
  rw [answer, answer, after, after, List.foldl_append,
    List.foldl_append, hSame]

/- An update that is refused leaves no trace. -/
theorem after_concat_update
    (bytes : Bytes)
    (hEnded : ended calls = true) :
    after (calls ++ [.update bytes]) = after calls := by
  rw [after_eq_stateOf, after_eq_stateOf, stateOf_concat_update,
    if_pos hEnded]

------------------------------------------------------------
-- One-Shot Calls
------------------------------------------------------------

/- The parts of a message are absorbed one after the other. -/
theorem foldlM_update_eq_ok
    (parts : List Bytes)
    (sponge : Absorber rate256) :
    parts.foldlM update (.absorbing sponge) =
      .ok (.absorbing (sponge.absorb parts.flatten)) := by
  induction parts generalizing sponge with
  | nil => rfl
  | cons part rest ih =>
      rw [List.flatten_cons, Absorber.absorb_append]
      exact ih (sponge.absorb part)

theorem generateFromParts_eq_ok
    (parts : List Bytes)
    (count : Nat) :
    generateFromParts parts count =
      .ok (shake256 parts.flatten count) := by
  rw [generateFromParts, start, foldlM_update_eq_ok]
  rfl

theorem generate_eq_ok
    (message : Bytes)
    {count : Nat}
    (hCount : count ≠ 0) :
    generate message count = .ok (shake256 message count) := by
  have hPositive : decide (0 < count) = true :=
    decide_eq_true (Nat.pos_of_ne_zero hCount)
  rw [generate, PrimitiveError.checkParameter,
    require_bind hPositive]
  rfl

------------------------------------------------------------
-- Runs
------------------------------------------------------------

/-
  In every run, a squeeze of any length hands out the bytes of
  the output for the message that come next, and an update is
  refused exactly after the end of the message.  Refused
  updates and second ends change nothing, and a reset leads
  back to a new instance.  One-shot calls hand out the first
  bytes of the output, however the message is cut.
-/
theorem calls_follow_output :
    (∀ (calls : List Call) (count : Nat),
      let bytes :=
        outputPart (absorbed calls) (squeezed calls) count
      answer calls (.squeeze count) = .ok bytes
        ∧ answer calls (.squeezeVec count) = .ok bytes)
      ∧ (∀ (calls : List Call) (bytes : Bytes),
        answer calls (.update bytes) =
          if ended calls then
            fail
              (.processing
                "SHAKE256 update"
                "cannot absorb after squeezing has started")
          else
            .ok [])
      ∧ (∀ (calls rest : List Call) (bytes : Bytes) (c : Call),
        ended calls = true →
          answer (calls ++ .update bytes :: rest) c =
            answer (calls ++ rest) c)
      ∧ (∀ (calls rest : List Call) (c : Call),
        answer calls .finish = .ok []
          ∧ answer (calls ++ .finish :: .finish :: rest) c =
            answer (calls ++ .finish :: rest) c)
      ∧ (∀ (calls rest : List Call) (c : Call),
        answer calls .reset = .ok []
          ∧ answer (calls ++ .reset :: rest) c = answer rest c)
      ∧ ∀ (parts : List Bytes) (count : Nat),
        generateFromParts parts count =
            .ok (outputPart parts.flatten 0 count)
          ∧ (count ≠ 0 →
            generate parts.flatten count =
              generateFromParts parts count) := by
  refine ⟨?_, answer_update, ?_, ?_, ?_, ?_⟩
  · intro calls count
    exact ⟨answer_squeeze calls count, answer_squeeze calls count⟩
  · intro calls rest bytes c hEnded
    have hSame :=
      answer_append_congr (after_concat_update bytes hEnded) rest c
    rw [List.append_assoc] at hSame
    exact hSame
  · intro calls rest c
    have hSame :=
      answer_append_congr (after_concat_finish_finish calls) rest c
    rw [List.append_assoc, List.append_assoc] at hSame
    exact ⟨rfl, hSame⟩
  · intro calls rest c
    have hSame :=
      answer_append_congr (after_concat_reset calls) rest c
    rw [List.append_assoc] at hSame
    exact ⟨rfl, hSame⟩
  · intro parts count
    rw [generateFromParts_eq_ok, ← shake256_eq_outputPart]
    exact ⟨rfl, generate_eq_ok parts.flatten⟩

end Xof

end LatticeSignature
