/-
WebSocket/Channel/Outgoing.lean

What an application can send.
-/
import WebSocket.Channel.Close
import WebSocket.Channel.Error

namespace WebSocket

/-- What an application can send. -/
inductive Outgoing where
  /-- A message of text. -/
  | text (message : String)
  /-- A message of octets. -/
  | binary (octets : Bytes)
  | ping (payload : Bytes)
  /-- Any frame. -/
  | frame (f : Frame)
  /-- The end of the channel. -/
  | close (code : UInt16) (reason : String)
  deriving DecidableEq, Repr

/-- The frame that is sent.  Of pings the length is checked. -/
def Outgoing.toFrame : Outgoing → Except ChannelError Frame
  | text message => .ok (.single .text (Text.Utf8.encode message.toList))
  | binary octets => .ok (.single .binary octets)
  | ping payload =>
    if maxControlLength < payload.length then .error (.codec .controlTooLong)
    else .ok (.single .ping payload)
  | frame f => .ok f
  | close code reason => .ok (.single .close (Close.payload code reason.toList))

end WebSocket
