/-
WebSocket/Channel/Session.lean

The application at the end of a channel.

An application is a state and what it does with each frame that it is given: it may
send something, and may refuse the frame, which ends the channel.  `Script` is an
application with a plan by the numbers of the frames.
-/
import WebSocket.Channel.Outgoing

namespace WebSocket

/-- What an application does with a frame. -/
structure Reaction where
  /-- What it sends. -/
  sends : List Outgoing := []
  /-- Whether it refuses the frame. -/
  refused : Bool := false
  deriving DecidableEq, Repr

/-- The states of an application. -/
class Session (σ : Type) where
  /-- Takes a frame. -/
  receive : σ → Frame → σ × Reaction

/-- An application that goes by the numbers of the frames, the first of which is
number 0. -/
structure Script where
  /-- The number of the frame that is refused. -/
  refuses : Option Nat := none
  /-- What is sent because of frames, by number. -/
  sends : List (Nat × Outgoing) := []
  /-- The number of frames so far. -/
  received : Nat := 0
  deriving DecidableEq, Repr

/-- What a script says about the next frame. -/
def Script.reaction (s : Script) : Reaction :=
  if s.refuses = some s.received then { refused := true }
  else { sends := (s.sends.filter fun entry => entry.1 == s.received).map Prod.snd }

instance : Session Script where
  receive s _ := ({ s with received := s.received + 1 }, s.reaction)

end WebSocket
