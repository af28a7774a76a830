/-
WebSocket/Http/Token.lean

The token characters of HTTP, of which header names, extension names and
unquoted parameter values are made.
-/
import WebSocket.Bytes

namespace WebSocket.Http

/-- Whether a character may stand in a token. -/
def isTokenChar (c : Char) : Bool :=
  c.isAlphanum || "!#$%&'*+-.^_`|~".toList.contains c

/-- Whether an octet may stand in a token. -/
def isTokenByte (b : UInt8) : Bool :=
  isTokenChar (Char.ofNat b.toNat)

/-- Whether a text is a token: not empty, and of token characters only. -/
def isToken (s : List Char) : Bool :=
  !s.isEmpty && s.all isTokenChar

end WebSocket.Http
