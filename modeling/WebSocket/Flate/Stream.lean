/-
WebSocket/Flate/Stream.lean

What the compression extension asks of a compressor and a decompressor.

Both work in calls: each is offered input and room for output, and says how much
of both it has used.  That it never uses more than it was offered belongs to its
type, so whoever drives it need not check.

A compressor flushes behind the input: a decompressor can turn what was written
so far back into what was taken so far without waiting for more.  The end of a
flush is a marker.  Where the room ends before the flush does, the compressor is
called again.  That no flush goes on for ever is what `work_lt` says.
-/
import WebSocket.Bytes

namespace WebSocket.Flate

/-- What one call has done with the input and the room that it was offered. -/
structure Advance (σ : Type) (input : Bytes) (room : Nat) where
  /-- The compressor or decompressor behind the call. -/
  state : σ
  /-- The number of octets of the input that are used up. -/
  consumed : Nat
  output : Bytes
  consumed_le : consumed ≤ input.length
  length_output_le : output.length ≤ room

/-- A streaming decompressor. -/
class Decompressor (δ : Type) where
  /-- A decompressor for a new message, with a window of `2 ^ windowBits` octets. -/
  fresh : (windowBits : Nat) → δ
  /-- Reads as far as the input and the room allow; `none` if the input is
  corrupt. -/
  advance : δ → (input : Bytes) → (room : Nat) → Option (Advance δ input room)

/-- The octets that the marker of a flush takes at most. -/
def markerRoom : Nat := 6

/-- A streaming compressor. -/
class Compressor (κ : Type) where
  /-- A compressor for a new message, with a window of `2 ^ windowBits` octets. -/
  fresh : (windowBits : Nat) → κ
  /-- Compresses as far as the input and the room allow, and flushes behind the
  last of the input.  A call that fails leaves a compressor as well. -/
  advance : κ → (input : Bytes) → (room : Nat) → Except κ (Advance κ input room)
  /-- A bound on what there is to take and to write for the input. -/
  work : κ → (input : Bytes) → Nat
  /-- With room for more than a marker, a call does some of it, unless it does nothing
  at all or is the last one of its flush: all input is taken and room is left. -/
  work_lt : ∀ {c : κ} {input : Bytes} {room : Nat} {a : Advance κ input room},
    markerRoom < room → advance c input room = .ok a → 0 < a.consumed ∨ a.output ≠ [] →
      a.consumed < input.length ∨ a.output.length = room →
      work a.state (input.drop a.consumed) < work c input

end WebSocket.Flate
