/-
WebSocket/Extension/Marker.lean

An extension that leaves a mark on every frame: it puts fixed octets behind each
payload, in both directions.  The marks show which extensions a frame has passed,
and in which order.  It may also claim reserved bits, and refuse the frame with a
given number or any configuration.
-/
import WebSocket.Extension.Basic
import WebSocket.Text.Utf8

namespace WebSocket.Extension

/-- An extension that marks payloads. -/
structure Marker where
  label : String
  /-- The octets of the mark. -/
  mark : Bytes := []
  bits : ReservedBits := {}
  /-- Whether to set the reserved bits on the way out and clear them on the way
  in. -/
  setsBits : Bool := false
  /-- The number of the frame that is refused on the way out. -/
  failEncode : Option Nat := none
  /-- The number of the frame that is refused on the way in. -/
  failDecode : Option Nat := none
  /-- Whether every configuration is refused. -/
  failConfigure : Bool := false
  offered : List Param := []
  /-- The number of frames seen on the way out. -/
  encoded : Nat := 0
  /-- The number of frames seen on the way in. -/
  decoded : Nat := 0
  deriving DecidableEq, Repr

namespace Marker

/-- Takes over parameters: each is added to the mark, in brackets. -/
def configure (e : Marker) (params : List Param) : Marker × Except ExtensionError Unit :=
  if e.failConfigure then (e, .error (.custom "cannot configure"))
  else
    let mark := params.flatMap fun p => Text.Utf8.encode ('[' :: p.render ++ [']'])
    ({ e with mark := e.mark ++ mark, offered := e.offered ++ params }, .ok ())

/-- Marks a frame on its way out. -/
def encode (e : Marker) (frame : Frame) : Marker × Except ExtensionError Frame :=
  let counted := { e with encoded := e.encoded + 1 }
  if e.failEncode = some e.encoded then (counted, .error (.custom "cannot encode"))
  else
    let rsv := if e.setsBits then frame.rsv.union e.bits else frame.rsv
    (counted, .ok { frame with rsv, payload := frame.payload ++ e.mark })

/-- Marks a frame on its way in. -/
def decode (e : Marker) (frame : Frame) : Marker × Except ExtensionError Frame :=
  let counted := { e with decoded := e.decoded + 1 }
  if e.failDecode = some e.decoded then (counted, .error (.custom "cannot decode"))
  else
    let rsv := if e.setsBits then frame.rsv.diff e.bits else frame.rsv
    (counted, .ok { frame with rsv, payload := frame.payload ++ e.mark })

end Marker

instance : Extension Marker where
  name := Marker.label
  params := Marker.offered
  reservedBits := Marker.bits
  configure := Marker.configure
  encode := Marker.encode
  decode := Marker.decode

end WebSocket.Extension
