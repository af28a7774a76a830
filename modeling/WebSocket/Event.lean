/-
WebSocket/Event.lean

What happens at the endpoint of a client, and what its application gets to know.

A client keeps a log of events.  Most of them are calls on the endpoint; the others
tell which frames were accepted and delivered, and how the handshake ended.  As all
of them are in one log, it also shows their order.
-/
import WebSocket.Channel.Error
import WebSocket.Handshake.Response

namespace WebSocket

/-- What happens at the endpoint of a client. -/
inductive Event where
  /-- The endpoint is asked for the octets that have arrived. -/
  | fill
  /-- The endpoint is asked to give word when octets arrive. -/
  | fillInterested
  /-- The application's frame or an answer is accepted, in this written form. -/
  | accept (frame : Frame) (octets : Bytes)
  /-- Octets are given to the endpoint. -/
  | write (octets : Bytes)
  /-- The endpoint is asked to end what it sends. -/
  | shutdownOutput
  /-- The endpoint is closed. -/
  | close
  /-- The endpoint gets another handler. -/
  | replaceHandler
  /-- The application is given a frame. -/
  | deliver (frame : Frame)
  /-- The application sent something because of the frame that it was given, and got
  this refusal, if any. -/
  | reply (refusal : Option ChannelError)
  /-- Something was sent from within a write, and got this refusal, if any. -/
  | nested (refusal : Option ChannelError)
  /-- The handshake succeeded. -/
  | upgraded (response : Handshake.Response)
  /-- The handshake failed. -/
  | failed (cause : Handshake.Error)
  deriving DecidableEq, Repr

end WebSocket
