/-
WebSocket/Channel/Error.lean

Why a frame cannot be sent, or a channel fails.
-/
import WebSocket.Extension.Basic
import WebSocket.Frame.Error

namespace WebSocket

/-- Why a frame cannot be sent, or a channel fails. -/
inductive ChannelError where
  /-- A frame that cannot be read or written. -/
  | codec (cause : FrameError)
  /-- An extension refuses a frame. -/
  | extension (cause : ExtensionError)
  /-- The transport failed. -/
  | io (message : String)
  /-- The channel is not there yet. -/
  | notConnected
  /-- The channel is closed, or about to be. -/
  | closed
  deriving DecidableEq, Repr

namespace ChannelError

/-- The wording of the error behind an error, if there is one. -/
def source? : ChannelError → Option String
  | codec cause => some cause.message
  | extension cause => some cause.message
  | io message => some message
  | notConnected | closed => none

/-- The wording of an error. -/
def message : ChannelError → String
  | codec cause => "codec error: " ++ cause.message
  | extension cause => "extension error: " ++ cause.message
  | io message => "i/o error: " ++ message
  | notConnected => "not connected"
  | closed => "connection closed"

end ChannelError

end WebSocket
