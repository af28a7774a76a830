/-
WebSocket/Frame/Layout.lean

Frames as an onlooker finds them on the wire.

An onlooker follows the lengths and takes the masks off, but judges nothing: any
opcode and any reserved bits will do, and a length may be written in a longer form
than it needs.
-/
import WebSocket.Frame.Basic
import WebSocket.Frame.Mask

namespace WebSocket

/-- A frame as it lies on the wire. -/
structure Layout where
  /-- The first octet. -/
  lead : UInt8
  /-- Whether there is a mask. -/
  masked : Bool
  /-- The number of octets that the length takes, that with the mask bit included. -/
  lengthOctets : Nat
  /-- The payload, without its mask. -/
  payload : Bytes
  deriving DecidableEq, Repr

namespace Layout

/-- The number of octets that follow the seven-bit code of a length. -/
def extraOctets (code : Nat) : Nat :=
  if code = 126 then 2 else if code = 127 then 8 else 0

/-- The length of the payload, and the octets behind its written form. -/
def readLength (code : Nat) (input : Bytes) : Nat × Bytes :=
  let extra := extraOctets code
  (if extra = 0 then code else Bytes.toNat (input.take extra), input.drop extra)

/-- The frame at the front of the wire, and the octets behind it. -/
def head? : Bytes → Option (Layout × Bytes)
  | lead :: second :: input =>
    let masked := 0x80 ≤ second
    let code := second.toNat % 128
    let (length, input) := readLength code input
    let key := if masked then UInt32.ofNat (Bytes.toNat (input.take 4)) else 0
    let input := if masked then input.drop 4 else input
    let octets := input.take length
    some (⟨lead, masked, 1 + extraOctets code, if masked then mask key octets else octets⟩,
      input.drop length)
  | _ => none

theorem length_of_head? {input rest : Bytes} {f : Layout} (h : head? input = some (f, rest)) :
    rest.length < input.length := by
  unfold head? at h
  split at h
  · simp only [Option.some.injEq, Prod.mk.injEq, readLength] at h
    rw [← h.2, List.length_drop]
    split <;> simp only [List.length_drop, List.length_cons] <;> omega
  · simp at h

/-- All frames on the wire. -/
def readAll (input : Bytes) : List Layout :=
  match h : head? input with
  | none => []
  | some (f, rest) =>
    have := length_of_head? h
    f :: readAll rest
termination_by input.length

/-- The frame that a layout shows, without its mask. -/
def toFrame (f : Layout) : Frame :=
  { opcode := (Opcode.ofNat? (f.lead.toNat % 16)).getD .reserved
    fin := 0x80 ≤ f.lead
    rsv := ⟨f.lead &&& 0x40 != 0, f.lead &&& 0x20 != 0, f.lead &&& 0x10 != 0⟩
    payload := f.payload }

end Layout

end WebSocket
