/-
WebSocket/Flate/Limit.lean

Decompressing a part of a message with a bound on its length.

The decompressor is called until it has used all input and left room in the
output.  Each call uses up input or adds output, or else it is the last one, and
output beyond the limit ends the loop: that is the measure of `inflateFrom`.

The room for a call is what the output buffer has left.  The buffer starts with
twice the length of the input; before each call it must have room for twice the
input that is left and 64 octets more, and if it is too short it is at least
doubled.
-/
import WebSocket.Flate.Stream

namespace WebSocket.Flate

/-- Why a part of a message cannot be decompressed. -/
inductive InflateError where
  /-- The input is corrupt. -/
  | corrupt
  /-- The output is longer than `limit` octets. -/
  | tooLarge (limit : Nat)
  /-- The input goes on, but the decompressor does not. -/
  | noProgress
  deriving DecidableEq, Repr

/-- The size of a buffer of `capacity` octets, of which `used` are taken, after
room for `wanted` more has been made. -/
def reserve (capacity used wanted : Nat) : Nat :=
  if capacity - used < wanted then max (2 * capacity) (used + wanted) else capacity

theorem le_reserve (capacity used wanted : Nat) :
    wanted ≤ reserve capacity used wanted - used := by
  unfold reserve
  split <;> omega

variable {δ : Type} [Decompressor δ]

/-- Decompresses `input` behind the octets of `output`, which lie in a buffer of
`capacity` octets. -/
def inflateFrom (limit : Nat) (d : δ) (input output : Bytes) (capacity : Nat) :
    Except InflateError (δ × Bytes) :=
  let size := reserve capacity output.length (2 * input.length + 64)
  match Decompressor.advance d input (size - output.length) with
  | none => .error .corrupt
  | some a =>
    let total := output.length + a.output.length
    if _limit : limit < total then .error (.tooLarge limit)
    else if a.consumed = input.length ∧ (total < size ∨ (a.consumed = 0 ∧ a.output = [])) then
      .ok (a.state, output ++ a.output)
    else if _stalled : a.consumed = 0 ∧ a.output = [] then .error .noProgress
    else inflateFrom limit a.state (input.drop a.consumed) (output ++ a.output) size
termination_by input.length + (limit + 1 - output.length)
decreasing_by
  have := a.consumed_le
  have : 0 < a.consumed ∨ 0 < a.output.length := by
    rcases Nat.eq_zero_or_pos a.consumed with h | h
    · exact .inr (List.length_pos_iff.2 fun e => _stalled ⟨h, e⟩)
    · exact .inl h
  simp only [List.length_drop, List.length_append]
  omega

/-- Decompresses a part of a message to at most `limit` octets. -/
def inflate (limit : Nat) (d : δ) (input : Bytes) : Except InflateError (δ × Bytes) :=
  inflateFrom limit d input [] (2 * input.length)

end WebSocket.Flate
