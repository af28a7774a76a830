/-
WebSocket/Handshake/Response.lean

The response to a request, and the reading of it from a stream that arrives in
pieces.

Design.  A `HeadReader` collects octets until it has seen the end of the head, the
octets 0D 0A 0D 0A.  It remembers how many of these four it has just seen, so
that they may be spread over pieces.  The octets behind the head stay where they
are.
-/
import WebSocket.Extension.Config
import WebSocket.Handshake.Error
import WebSocket.Http.ResponseHead

namespace WebSocket.Handshake

/-- A response: the head, and what was agreed upon. -/
structure Response extends Http.ResponseHead where
  /-- The extensions that the server agreed to. -/
  extensions : List Extension.Config := []
  /-- The subprotocol that the server chose. -/
  protocol : Option String := none
  deriving DecidableEq, Repr

/-- What a head ends with. -/
def endOfHead : Bytes := [0x0d, 0x0a, 0x0d, 0x0a]

/-- A reader of response heads. -/
structure HeadReader where
  /-- The octets of the head so far. -/
  head : Array UInt8 := #[]
  /-- How many octets of `endOfHead` have just been seen. -/
  matched : Nat := 0
  /-- The longest head that is accepted. -/
  limit : Nat
  deriving DecidableEq, Repr

namespace HeadReader

/-- The usual limit. -/
def defaultLimit : Nat := 8 * 1024

/-- How many octets of `endOfHead` have just been seen when another octet
follows.

All four are seen only behind a piece that held the end of the head and was
refused as too long.  If the program is called again there, it looks for a fifth
octet of `endOfHead` and stops.  This goes on with 0 or 1 instead, so it says
nothing of such calls, and `HeadReader.Called` leaves them out. -/
def advance (matched : Nat) (b : UInt8) : Nat :=
  if endOfHead[matched]? = some b then matched + 1
  else if b = 0x0d then 1
  else 0

/-- Goes over a piece that comes behind `seen` others octets of it: how much was
matched, and the number of octets up to the end of the head, if it is there. -/
def scan (matched seen : Nat) : Bytes → Nat × Option Nat
  | [] => (matched, none)
  | b :: bs =>
    let matched := advance matched b
    if matched = endOfHead.length then (matched, some (seen + 1))
    else scan matched (seen + 1) bs

/-- What one call of a reader comes to: the reader behind it, the octets that are
left, and a response, a demand for more octets (`none`), or an error. -/
structure Parsed where
  reader : HeadReader
  rest : Bytes
  result : Except Error (Option Response)

/-- Reads a whole head. -/
def decode (head : Bytes) : Except Error Response :=
  match Http.ResponseHead.parse head with
  | .error cause => .error (.http cause)
  | .ok (parsed, _) => .ok { toResponseHead := parsed }

/-- Reads on from the front of `input`. -/
def parse (r : HeadReader) (input : Bytes) : Parsed :=
  let (matched, ending) := scan r.matched 0 input
  let n := ending.getD input.length
  if r.limit < r.head.size + n then
    ⟨{ r with matched }, input, .error (.headTooLarge r.limit)⟩
  else
    let head := r.head ++ input.take n
    if ending.isNone then ⟨{ r with head, matched }, input.drop n, .ok none⟩
    else ⟨{ r with head := #[], matched := 0 }, input.drop n, (decode head.toList).map some⟩

end HeadReader

end WebSocket.Handshake
