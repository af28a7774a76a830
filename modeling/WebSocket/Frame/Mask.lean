/-
WebSocket/Frame/Mask.lean

Masking: the octets of a payload are combined with the four octets of a mask,
over and over.  Masking twice gives the payload back (`mask_mask`).
-/
import WebSocket.Bytes

namespace WebSocket

/-- The octet of a mask that meets the octet number `i` of the payload. -/
def maskByte (key : UInt32) (i : Nat) : UInt8 :=
  (key >>> UInt32.ofNat (24 - 8 * (i % 4))).toUInt8

/-- Masks or unmasks a payload. -/
def mask (key : UInt32) (payload : Bytes) : Bytes :=
  payload.mapIdx fun i b => b ^^^ maskByte key i

@[simp] theorem length_mask (key : UInt32) (payload : Bytes) :
    (mask key payload).length = payload.length := by
  simp [mask]

@[simp] theorem mask_mask (key : UInt32) (payload : Bytes) :
    mask key (mask key payload) = payload := by
  apply List.ext_getElem
  · simp
  · intro i _ _
    simp only [mask, List.getElem_mapIdx, UInt8.xor_assoc, UInt8.xor_self, UInt8.xor_zero]

end WebSocket
