/-
WebSocket/Flate/Flush.lean

Compressing a part of a message, with a flush behind it.

The compressor is called until it has taken all input and left room in the output,
or has nothing more to do.  A call that does nothing although input is left is an
error, as it would be called for ever.  Any other call leaves less work: that is the
measure of `deflateFrom`.

The buffer starts with the length of the input and 16 octets more; before each call
it must have room for the input that is left and 64 octets more (`reserve`).
-/
import WebSocket.Flate.Limit

namespace WebSocket.Flate

/-- Why a part of a message cannot be compressed. -/
inductive DeflateError where
  /-- A call has failed. -/
  | failed
  /-- The input goes on, but the compressor does not. -/
  | noProgress
  deriving DecidableEq, Repr

variable {κ : Type} [Compressor κ]

/-- Compresses `input` behind the octets of `output`, which lie in a buffer of
`capacity` octets.  There is a compressor behind it in any case. -/
def deflateFrom (c : κ) (input output : Bytes) (capacity : Nat) :
    κ × Except DeflateError Bytes :=
  let size := reserve capacity output.length (input.length + 64)
  match _h : Compressor.advance c input (size - output.length) with
  | .error c => (c, .error .failed)
  | .ok a =>
    let total := output.length + a.output.length
    if _done : a.consumed = input.length ∧ (total < size ∨ (a.consumed = 0 ∧ a.output = [])) then
      (a.state, .ok (output ++ a.output))
    else if _stalled : a.consumed = 0 ∧ a.output = [] then (a.state, .error .noProgress)
    else deflateFrom a.state (input.drop a.consumed) (output ++ a.output) size
termination_by Compressor.work c input
decreasing_by
  have hroom := le_reserve capacity output.length (input.length + 64)
  have hconsumed := a.consumed_le
  have hwritten := a.length_output_le
  -- The call has done something, and as the loop goes on it was not the last one.
  have hsome : 0 < a.consumed ∨ a.output ≠ [] := by
    rcases Nat.eq_zero_or_pos a.consumed with h | h
    · exact .inr fun e => _stalled ⟨h, e⟩
    · exact .inl h
  have hmore : a.consumed < input.length ∨ a.output.length = size - output.length := by
    by_cases hall : a.consumed = input.length
    · have hfull : ¬output.length + a.output.length < size := fun h => _done ⟨hall, .inl h⟩
      exact .inr (by omega)
    · exact .inl (by omega)
  exact Compressor.work_lt (by unfold markerRoom; omega) _h hsome hmore

/-- Compresses a part of a message. -/
def deflate (c : κ) (input : Bytes) : κ × Except DeflateError Bytes :=
  deflateFrom c input [] (input.length + 16)

end WebSocket.Flate
