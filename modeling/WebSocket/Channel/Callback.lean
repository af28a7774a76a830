/-
WebSocket/Channel/Callback.lean

How an endpoint speaks to its handler: it calls the handler when something has
happened, and when asked for octets it gives what has arrived.
-/
import WebSocket.Bytes

namespace WebSocket

/-- What an endpoint calls its handler for. -/
inductive Callback where
  /-- The handler is now the one of the endpoint. -/
  | opened
  /-- Octets may have arrived. -/
  | readable
  /-- A write has ended, with this failure, if any. -/
  | written (failure : Option String)
  /-- Somebody wants an end to it. -/
  | aborted
  deriving DecidableEq, Repr

/-- What an endpoint gives for one request for octets. -/
inductive Inbound where
  /-- Some octets.  If there are none, this is the same as `empty`. -/
  | data (octets : Bytes)
  /-- No octets for now. -/
  | empty
  /-- The peer has ended the stream.  It stays so. -/
  | ended
  /-- The transport failed. -/
  | failed (message : String)
  deriving DecidableEq, Repr

end WebSocket
