/-
WebSocket/Frame/Basic.lean

Frames: a header and a payload.

The three reserved bits of a header belong to extensions.  A `ReservedBits` is
used for the bits that a frame carries as well as for those that the extensions
of a channel have taken into use, so both have the same operations.
-/
import WebSocket.Bytes
import WebSocket.Frame.Opcode

namespace WebSocket

/-! ### Reserved bits -/

/-- A set of the three header bits that are left to extensions. -/
structure ReservedBits where
  rsv1 : Bool := false
  rsv2 : Bool := false
  rsv3 : Bool := false
  deriving DecidableEq, Repr, Inhabited

namespace ReservedBits

/-- The bits of either set. -/
def union (s t : ReservedBits) : ReservedBits :=
  ⟨s.rsv1 || t.rsv1, s.rsv2 || t.rsv2, s.rsv3 || t.rsv3⟩

/-- The bits of `s` that are not in `t`. -/
def diff (s t : ReservedBits) : ReservedBits :=
  ⟨s.rsv1 && !t.rsv1, s.rsv2 && !t.rsv2, s.rsv3 && !t.rsv3⟩

/-- The number of the lowest bit of a set. -/
def lowest? (s : ReservedBits) : Option Nat :=
  if s.rsv1 then some 1 else if s.rsv2 then some 2 else if s.rsv3 then some 3 else none

/-- The set of the bit with this number. -/
def single : Nat → ReservedBits
  | 1 => ⟨true, false, false⟩
  | 2 => ⟨false, true, false⟩
  | 3 => ⟨false, false, true⟩
  | _ => {}

/-- The bits of a set as digits, the lowest first. -/
def digits (s : ReservedBits) : String :=
  String.ofList ([s.rsv1, s.rsv2, s.rsv3].map fun b => if b then '1' else '0')

end ReservedBits

/-! ### Frames -/

/-- What a frame says about its payload. -/
structure Header where
  opcode : Opcode
  /-- Whether the message ends with this frame. -/
  fin : Bool := true
  rsv : ReservedBits := {}
  /-- Whether the payload is masked on the wire. -/
  masked : Bool := false
  /-- The mask.  It has a meaning only if the payload is masked. -/
  mask : UInt32 := 0
  deriving DecidableEq, Repr, Inhabited

/-- A frame, with its payload as it is before masking. -/
structure Frame extends Header where
  payload : Bytes := []
  deriving DecidableEq, Repr, Inhabited

/-- The header as it is shown to people. -/
def Header.render (h : Header) : String :=
  let bit (b : Bool) := if b then "1" else "0"
  "(" ++ h.opcode.name ++ " (fin " ++ bit h.fin ++ ") (rsv " ++ h.rsv.digits
    ++ ") (mask " ++ bit h.masked ++ "))"

/-- A frame that is a whole message by itself. -/
def Frame.single (opcode : Opcode) (payload : Bytes) : Frame :=
  { opcode, payload }

/-- A frame with this header and nothing in it. -/
def Frame.bare (h : Header) : Frame :=
  { toHeader := h }

end WebSocket
