/-
WebSocket/Channel/Close.lean

What close frames carry: nothing, or a code of two octets and behind it a reason
in UTF-8.
-/
import WebSocket.Frame.Encoder
import WebSocket.Text.Utf8

namespace WebSocket.Close

/-- The number of octets of a code. -/
def codeLength : Nat := 2

/-- The most octets that a reason may have. -/
def maxReasonLength : Nat := maxControlLength - codeLength

/-- The longest prefix of a text that fits into `room` octets of UTF-8. -/
def fitting : (room : Nat) → List Char → List Char
  | _, [] => []
  | room, c :: cs =>
    if c.utf8Size ≤ room then c :: fitting (room - c.utf8Size) cs else []

/-- The payload for a code and a reason, of which only whole characters are kept as
far as they fit. -/
def payload (code : UInt16) (reason : List Char) : Bytes :=
  Bytes.ofNat codeLength code.toNat ++ Text.Utf8.encode (fitting maxReasonLength reason)

/-- The code that says that the peer broke the protocol. -/
def protocolError : Nat := 1002

/-- Whether a code is given back to a peer that closes with it. -/
def isEchoed (code : Nat) : Bool :=
  (1000 ≤ code && code ≤ 1003) || (1007 ≤ code && code ≤ 1011) || code == 1015
    || (3000 ≤ code && code ≤ 4999)

/-- The payload of the answer to a close frame: its code, or that of a protocol
error in place of one that is not given back; nothing if it has no code. -/
def answer (received : Bytes) : Bytes :=
  if received.length < codeLength then []
  else
    let code := Bytes.toNat (received.take codeLength)
    Bytes.ofNat codeLength (if isEchoed code then code else protocolError)

end WebSocket.Close
