/-
WebSocket/Extension/Basic.lean

What an extension is.

An extension sees every frame on its way out and every frame on its way in, may
change it or refuse it, and keeps a state of its own, which both directions
share.  The state is kept even when a frame is refused.
-/
import WebSocket.Extension.Config
import WebSocket.Frame.Basic
import WebSocket.Text.Escaped

namespace WebSocket

/-- Why an extension refuses a frame or a configuration. -/
inductive ExtensionError where
  /-- A window size of our own beyond the range that is supported. -/
  | windowBits (bits : Nat)
  /-- A parameter for a window size without a number in range. -/
  | windowParam (name value : String)
  /-- A parameter that the extension does not have. -/
  | unknownParam (extension name : String)
  /-- The peer did not promise to forget each message behind its end. -/
  | contextTakeover (extension : String)
  /-- Compression that fails. -/
  | compressionFailed
  /-- Compression that does not get to its end. -/
  | compressionStalled
  /-- Compressed data that is corrupt. -/
  | corruptData
  /-- A message that is longer than `limit` octets when it is decompressed. -/
  | messageTooLarge (limit : Nat)
  /-- Compressed data that goes on behind its end. -/
  | noProgress
  /-- A reason of the extension's own. -/
  | custom (message : String)
  deriving DecidableEq, Repr

/-- The wording of an error. -/
def ExtensionError.message : ExtensionError → String
  | windowBits bits => s!"max. client window bits have to be within 9 ..= 15, not {bits}"
  | windowParam name value =>
    "invalid " ++ name ++ ": " ++ Text.Escaped.quote value ++ " (expected range: 8 ..= 15)"
  | unknownParam extension name => extension ++ ": unknown parameter: " ++ name
  | contextTakeover extension => extension ++ ": server did not confirm no context takeover"
  | compressionFailed => "deflate compression error"
  | compressionStalled => "deflate: compressor made no progress"
  | corruptData => "deflate decompression error"
  | messageTooLarge limit => s!"deflate: inflated message exceeds {limit} bytes"
  | noProgress => "deflate: decompressor made no progress"
  | custom message => message

/-- The states of an extension, or of several kinds of extensions. -/
class Extension (ε : Type) where
  name : ε → String
  /-- The parameters that are offered to the peer. -/
  params : ε → List Extension.Param
  /-- The reserved bits that the extension takes into use. -/
  reservedBits : ε → ReservedBits
  /-- Takes over the parameters that were agreed upon. -/
  configure : ε → List Extension.Param → ε × Except ExtensionError Unit
  /-- Changes a frame on its way out. -/
  encode : ε → Frame → ε × Except ExtensionError Frame
  /-- Changes a frame on its way in. -/
  decode : ε → Frame → ε × Except ExtensionError Frame

/-- What is offered to the peer for an extension. -/
def Extension.offer {ε : Type} [Extension ε] (e : ε) : Extension.Config :=
  { name := Extension.name e, params := Extension.params e }

end WebSocket
