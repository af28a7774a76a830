/-
WebSocket/Frame/Error.lean

What can be wrong with a frame.
-/

namespace WebSocket

/-- Why a frame cannot be read or written. -/
inductive FrameError where
  /-- A number beyond the opcodes. -/
  | unknownOpcode
  /-- An opcode without a meaning. -/
  | reservedOpcode
  /-- A control frame that is not the last of its message. -/
  | fragmentedControl
  /-- A control frame with a long payload. -/
  | controlTooLong
  /-- A reserved bit, by its number, that no extension has in use. -/
  | reservedBit (number : Nat)
  /-- A payload beyond the limit. -/
  | payloadTooLarge (actual maximum : Nat)
  /-- The stream had an error before. -/
  | illegalState
  deriving DecidableEq, Repr

/-- The wording of an error. -/
def FrameError.message : FrameError → String
  | unknownOpcode => "unknown opcode"
  | reservedOpcode => "reserved opcode"
  | fragmentedControl => "fragmented control frame"
  | controlTooLong => "invalid control frame (len > 125)"
  | reservedBit number => s!"invalid rsv{number} bit set"
  | payloadTooLarge actual maximum =>
    s!"payload too large: len = {actual}, maximum = {maximum}"
  | illegalState => "illegal codec state"

end WebSocket
