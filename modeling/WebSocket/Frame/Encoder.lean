/-
WebSocket/Frame/Encoder.lean

Writing frames.

The length of the payload goes into seven bits of the header if it is below
126; otherwise these bits say that two or eight octets with the length follow,
and the shorter form that fits is taken.  A frame with a reserved bit that is
not in use is refused, and nothing else is checked.
-/
import WebSocket.Frame.Basic
import WebSocket.Frame.Error
import WebSocket.Frame.Mask

namespace WebSocket

/-- The longest payload of a control frame. -/
def maxControlLength : Nat := 125

/-- The seven-bit code for a length, and the octets behind it. -/
def lengthField (n : Nat) : Nat × Bytes :=
  if n < 126 then (n, [])
  else if n < Bytes.capacity 2 then (126, Bytes.ofNat 2 n)
  else (127, Bytes.ofNat 8 n)

namespace Frame

/-- The first octet: the last-frame bit, the reserved bits and the opcode. -/
def firstByte (h : Header) : UInt8 :=
  UInt8.ofNat ((if h.fin then 0x80 else 0) + (if h.rsv.rsv1 then 0x40 else 0)
    + (if h.rsv.rsv2 then 0x20 else 0) + (if h.rsv.rsv3 then 0x10 else 0) + h.opcode.toNat)

/-- The second octet: the mask bit and the code of the length. -/
def secondByte (masked : Bool) (code : Nat) : UInt8 :=
  UInt8.ofNat ((if masked then 0x80 else 0) + code)

/-- A frame in its written form. -/
def wire (f : Frame) : Bytes :=
  let length := lengthField f.payload.length
  firstByte f.toHeader :: secondByte f.masked length.1 :: length.2
    ++ if f.masked then Bytes.ofNat 4 f.mask.toNat ++ WebSocket.mask f.mask f.payload
      else f.payload

/-- Writes a frame behind what a buffer holds.  A frame with a reserved bit that is
not in use is refused, and then the buffer stays as it is. -/
def append (inUse : ReservedBits) (buffer : Bytes) (f : Frame) : Bytes × Except FrameError Unit :=
  match (f.rsv.diff inUse).lowest? with
  | some n => (buffer, .error (.reservedBit n))
  | none => (buffer ++ f.wire, .ok ())

/-- A frame in its written form, if it carries no reserved bit beyond those in
use. -/
def encode (inUse : ReservedBits) (f : Frame) : Except FrameError Bytes :=
  let (octets, r) := append inUse [] f
  r.map fun () => octets

end Frame

end WebSocket
