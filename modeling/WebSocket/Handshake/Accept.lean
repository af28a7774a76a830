/-
WebSocket/Handshake/Accept.lean

The answer that a server must give to the key of a request: the Base64 form of
the digest of the key and a fixed identifier.
-/
import WebSocket.Digest.Sha1
import WebSocket.Encoding.Base64

namespace WebSocket.Handshake

/-- The identifier that is put behind the key. -/
def acceptIdentifier : Bytes :=
  Bytes.ofLatin "258EAFA5-E914-47DA-95CA-C5AB0DC85B11"

/-- The value of `Sec-WebSocket-Accept` for a key. -/
def acceptKey (key : Bytes) : String :=
  String.ofList (Base64.encode (Sha1.digest (key ++ acceptIdentifier)))

end WebSocket.Handshake
