/-
WebSocket/Frame/Opcode.lean

The kinds of frames.

Ten of the sixteen opcodes have no meaning yet.  They are read as one kind,
`reserved`, and that kind is written as the opcode 3, so `ofNat?_toNat` holds of
every kind.
-/

namespace WebSocket

/-- The kind of a frame. -/
inductive Opcode where
  /-- A further part of a message. -/
  | continuation
  /-- A message of text, or its first part. -/
  | text
  /-- A message of octets, or its first part. -/
  | binary
  /-- The sender closes the channel. -/
  | close
  /-- A request for a pong. -/
  | ping
  /-- The answer to a ping. -/
  | pong
  /-- Any opcode without a meaning. -/
  | reserved
  deriving DecidableEq, Repr, Inhabited

namespace Opcode

/-- The kind for a number; only four bits have one. -/
def ofNat? : Nat → Option Opcode
  | 0 => some continuation
  | 1 => some text
  | 2 => some binary
  | 8 => some close
  | 9 => some ping
  | 10 => some pong
  | n => if n < 16 then some reserved else none

/-- The number for a kind. -/
def toNat : Opcode → Nat
  | continuation => 0
  | text => 1
  | binary => 2
  | close => 8
  | ping => 9
  | pong => 10
  | reserved => 3

/-- The name of a kind. -/
def name : Opcode → String
  | continuation => "Continue"
  | text => "Text"
  | binary => "Binary"
  | close => "Close"
  | ping => "Ping"
  | pong => "Pong"
  | reserved => "Reserved"

/-- Whether frames of this kind speak about the channel rather than carry a part
of a message.  They are never split, and short. -/
def isControl : Opcode → Bool
  | close | ping | pong => true
  | _ => false

/-- Whether frames of this kind have no meaning yet. -/
def isReserved : Opcode → Bool
  | reserved => true
  | _ => false

theorem ofNat?_toNat (o : Opcode) : ofNat? o.toNat = some o := by
  cases o <;> rfl

theorem toNat_lt (o : Opcode) : o.toNat < 16 := by
  cases o <;> decide

end Opcode

end WebSocket
