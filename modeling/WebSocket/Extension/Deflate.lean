/-
WebSocket/Extension/Deflate.lean

The extension `permessage-deflate`: messages are compressed, each by itself.

Design.  A compressed message is known by the first reserved bit on its first
frame.  The extension holds a decompressor from there to the last frame of the
message, and a compressor in the same way, so a later part of a message is
compressed exactly if its first part was.  Every frame is flushed, and the marker
at the end of the last flush is not sent; the reader puts it back.

The compressor and the decompressor are parameters.  Neither side may keep its
window from one message to the next, and a configuration in which the peer did
not promise that is refused.
-/
import WebSocket.Extension.Basic
import WebSocket.Flate.Compressor
import WebSocket.Flate.Flush

namespace WebSocket.Extension

open Flate

/-! ### Parameters -/

/-- The peer forgets each message behind its end. -/
def serverNoContextTakeover : String := "server_no_context_takeover"

/-- The size of the peer's window. -/
def serverMaxWindowBits : String := "server_max_window_bits"

/-- We forget each message behind its end. -/
def clientNoContextTakeover : String := "client_no_context_takeover"

/-- The size of our window. -/
def clientMaxWindowBits : String := "client_max_window_bits"

/-- The extension, with compressors `κ` and decompressors `δ`. -/
structure Deflate (κ δ : Type) where
  offered : List Param :=
    [{ name := serverNoContextTakeover }, { name := clientNoContextTakeover },
     { name := clientMaxWindowBits }]
  /-- Our messages are compressed with a window of this many bits. -/
  ourBits : Nat := 15
  /-- The peer's messages are decompressed with a window of this many bits. -/
  theirBits : Nat := 15
  /-- The greatest length of a message when it is decompressed. -/
  maxMessageSize : Nat := 256 * 1024 * 1024
  /-- The length of the message at hand as far as it is decompressed. -/
  inflated : Nat := 0
  /-- Held between the first and the last frame of a message of ours. -/
  compressor : Option κ := none
  /-- Held between the first and the last frame of a compressed message of the
  peer. -/
  decompressor : Option δ := none
  deriving Repr

namespace Deflate

variable {κ δ : Type}

/-- The name under which the extension is negotiated. -/
def extensionName : String := "permessage-deflate"

/-- The error for a part that cannot be compressed. -/
def ofDeflateError : DeflateError → ExtensionError
  | .failed => .compressionFailed
  | .noProgress => .compressionStalled

/-- The error for a part that cannot be decompressed. -/
def ofInflateError : InflateError → ExtensionError
  | .corrupt => .corruptData
  | .tooLarge limit => .messageTooLarge limit
  | .noProgress => .noProgress

/-- Limits our window to at most this size, and offers that to the peer. -/
def setMaxClientWindowBits (e : Deflate κ δ) (bits : Nat) :
    Deflate κ δ × Except ExtensionError Unit :=
  if bits < 9 || 15 < bits then (e, .error (.windowBits bits))
  else
    let offered := match e.offered.span fun p => p.name ≠ clientMaxWindowBits with
      | (front, p :: back) => front ++ { p with value := some (toString bits) } :: back
      | (front, []) => front
    ({ e with ourBits := bits, offered }, .ok ())

/-- Sets the greatest length of a decompressed message. -/
def setMaxMessageSize (e : Deflate κ δ) (size : Nat) : Deflate κ δ :=
  { e with maxMessageSize := size }

/-- The number that a text of digits denotes; a plus sign may precede them. -/
def parseNumber? (s : List Char) : Option Nat :=
  let digits := if s.head? = some '+' then s.tail else s
  if digits.isEmpty || !digits.all Char.isDigit then none
  else some (digits.foldl (fun n c => 10 * n + (c.toNat - '0'.toNat)) 0)

/-- The window size that a parameter gives, if it has a value. -/
def windowBits (p : Param) : Except ExtensionError (Option Nat) :=
  match p.value with
  | none => .ok none
  | some v =>
    match parseNumber? v.toList with
    | some n => if 8 ≤ n && n ≤ 15 then .ok (some n) else .error (.windowParam p.name v)
    | none => .error (.windowParam p.name v)

/-- Takes over one parameter.  Windows below 9 bits are treated as such of 9. -/
def configureParam (e : Deflate κ δ) (p : Param) : Except ExtensionError (Deflate κ δ) :=
  if p.name = serverNoContextTakeover || p.name = clientNoContextTakeover then .ok e
  else if p.name = serverMaxWindowBits then
    match windowBits p with
    | .error err => .error err
    | .ok none => .ok e
    | .ok (some n) => .ok { e with theirBits := max 9 n }
  else if p.name = clientMaxWindowBits then
    match windowBits p with
    | .error err => .error err
    | .ok none => .ok e
    | .ok (some n) => .ok { e with ourBits := min e.ourBits (max 9 n) }
  else .error (.unknownParam extensionName p.name)

/-- Takes over parameters up to the first that is refused. -/
def configureParams (e : Deflate κ δ) : List Param → Deflate κ δ × Except ExtensionError Unit
  | [] => (e, .ok ())
  | p :: ps =>
    match e.configureParam p with
    | .error err => (e, .error err)
    | .ok e => e.configureParams ps

/-- Takes over the parameters that were agreed upon.  The peer has to promise that
it forgets each message behind its end. -/
def configure (e : Deflate κ δ) (params : List Param) :
    Deflate κ δ × Except ExtensionError Unit :=
  match e.configureParams params with
  | (e, .error err) => (e, .error err)
  | (e, .ok ()) =>
    if params.any fun p => p.name == serverNoContextTakeover then (e, .ok ())
    else (e, .error (.contextTakeover extensionName))

/-! ### Frames -/

/-- Whether a frame begins a message. -/
def beginsMessage (frame : Frame) : Bool :=
  frame.opcode = .text || frame.opcode = .binary

/-- The decompressor for a frame and what was decompressed of its message before;
`none` if the frame is no part of a compressed message. -/
def decompressorFor? [Decompressor δ] (e : Deflate κ δ) (frame : Frame) : Option (δ × Nat) :=
  if beginsMessage frame && frame.rsv.rsv1 then some (Decompressor.fresh e.theirBits, 0)
  else if frame.opcode = .continuation then e.decompressor.map fun d => (d, e.inflated)
  else none

/-- The part of a compressed message that is in a frame, with the marker that is
left out at the end of the message. -/
def compressedPart (frame : Frame) : Bytes :=
  if frame.fin then frame.payload ++ flushMarker else frame.payload

/-- Decompresses a frame if it is a part of a compressed message. -/
def decode [Decompressor δ] (e : Deflate κ δ) (frame : Frame) :
    Deflate κ δ × Except ExtensionError Frame :=
  match e.decompressorFor? frame with
  | none => (e, .ok frame)
  | some (d, inflated) =>
    match inflate (e.maxMessageSize - inflated) d (compressedPart frame) with
    | .error err => ({ e with decompressor := none, inflated }, .error (ofInflateError err))
    | .ok (d, payload) =>
      let decompressor := if frame.fin then none else some d
      ({ e with decompressor, inflated := inflated + payload.length },
        .ok { frame with rsv.rsv1 := false, payload })

/-- The compressor for a frame; `none` if the frame is not to be compressed. -/
def compressorFor? [Compressor κ] (e : Deflate κ δ) (frame : Frame) : Option κ :=
  if beginsMessage frame then some (Compressor.fresh e.ourBits)
  else if frame.opcode = .continuation then e.compressor
  else none

/-- What is sent of a flush: at the end of a message without the marker. -/
def sentPart (fin : Bool) (flushed : Bytes) : Bytes :=
  if fin && flushMarker.isSuffixOf flushed then
    flushed.take (flushed.length - flushMarker.length)
  else flushed

/-- Compresses a frame if it is a part of a message.  Where that fails, the compressor
is kept, even at the end of the message. -/
def encode [Compressor κ] (e : Deflate κ δ) (frame : Frame) :
    Deflate κ δ × Except ExtensionError Frame :=
  match e.compressorFor? frame with
  | none => (e, .ok frame)
  | some c =>
    match deflate c frame.payload with
    | (c, .error err) => ({ e with compressor := some c }, .error (ofDeflateError err))
    | (c, .ok flushed) =>
      let compressor := if frame.fin then none else some c
      ({ e with compressor },
        .ok { frame with
          rsv.rsv1 := frame.rsv.rsv1 || beginsMessage frame
          payload := sentPart frame.fin flushed })

end Deflate

instance {κ δ : Type} [Compressor κ] [Decompressor δ] : Extension (Deflate κ δ) where
  name _ := Deflate.extensionName
  params := Deflate.offered
  reservedBits _ := { rsv1 := true }
  configure := Deflate.configure
  encode := Deflate.encode
  decode := Deflate.decode

end WebSocket.Extension
