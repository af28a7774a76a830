/-
WebSocket/Http/ResponseHead.lean

Reading the head of a response: the status line and the headers, up to an empty
line.

Design.  Each part is a function from octets to its value and the octets behind
it.  Lines end in a line feed, with or without a carriage return in front of it,
and empty lines before the status line are skipped.  So the head may be over
before the octets are; `parse` gives back what is behind it.
-/
import WebSocket.Http.Error
import WebSocket.Http.Headers

namespace WebSocket.Http

/-- The versions of HTTP that have this form of head. -/
inductive Version where
  | http10
  | http11
  deriving DecidableEq, Repr

/-- The name of a version. -/
def Version.name : Version → String
  | http10 => "HTTP/1.0"
  | http11 => "HTTP/1.1"

/-- The head of a response. -/
structure ResponseHead where
  version : Version
  status : Nat
  /-- The reason phrase; empty if there is none, or if it is not ASCII. -/
  reason : String
  headers : Headers
  deriving DecidableEq, Repr

namespace ResponseHead

/-- The most headers of a response. -/
def maxHeaders : Nat := 32

/-- The longest header name. -/
def maxNameLength : Nat := 65535

/-- The text of ASCII octets. -/
def ascii (bs : Bytes) : String :=
  String.ofList (bs.map fun b => Char.ofNat b.toNat)

/-- Takes the end of a line; `bad` is the error if something else is there. -/
def endLine (bad : HeadError) : Bytes → Except HeadError Bytes
  | [] => .error .truncated
  | [0x0d] => .error .truncated
  | 0x0d :: 0x0a :: rest => .ok rest
  | 0x0a :: rest => .ok rest
  | _ => .error bad

/-- Skips empty lines. -/
def skipEmptyLines : Bytes → Except HeadError Bytes
  | [] => .error .truncated
  | [0x0d] => .error .truncated
  | 0x0d :: 0x0a :: rest => skipEmptyLines rest
  | 0x0d :: _ => .error .newLine
  | 0x0a :: rest => skipEmptyLines rest
  | bs => .ok bs

/-- Takes the version, eight octets. -/
def takeVersion (bs : Bytes) : Except HeadError (Version × Bytes) :=
  if bs.length < 8 then
    if bs.isPrefixOf (Bytes.ofLatin "HTTP/1.") then .error .truncated else .error .version
  else if bs.take 8 = Bytes.ofLatin Version.http10.name then .ok (.http10, bs.drop 8)
  else if bs.take 8 = Bytes.ofLatin Version.http11.name then .ok (.http11, bs.drop 8)
  else .error .version

/-- Takes a space. -/
def takeSpace : Bytes → Except HeadError Bytes
  | [] => .error .truncated
  | b :: rest => if b = 0x20 then .ok rest else .error .version

/-- Takes `n` digits behind those that make up `value`. -/
def takeDigits (value : Nat) : (n : Nat) → Bytes → Except HeadError (Nat × Bytes)
  | 0, bs => .ok (value, bs)
  | _ + 1, [] => .error .truncated
  | n + 1, b :: rest =>
    if 0x30 ≤ b && b ≤ 0x39 then takeDigits (10 * value + (b.toNat - 0x30)) n rest
    else .error .status

/-- Takes the reason phrase and the end of the status line.  The phrase may be
left out with the space in front of it. -/
def takeReason : Bytes → Except HeadError (String × Bytes)
  | 0x20 :: bs => do
    let reason := bs.takeWhile isValueByte
    let rest ← endLine .status (bs.dropWhile isValueByte)
    return (if reason.all (· < 0x80) then ascii reason else "", rest)
  | bs => do return ("", ← endLine .status bs)

/-- Whether an octet is a space or a tab. -/
def isPadding (b : UInt8) : Bool :=
  b == 0x20 || b == 0x09

/-- Takes a header. -/
def takeHeader (bs : Bytes) : Except HeadError ((String × Bytes) × Bytes) :=
  let name := bs.takeWhile isTokenByte
  match bs.dropWhile isTokenByte with
  | [] => .error .truncated
  | b :: rest =>
    if name.isEmpty || b ≠ 0x3a then .error .headerName
    else
      let rest := rest.dropWhile isPadding
      let value := ((rest.takeWhile isValueByte).reverse.dropWhile isPadding).reverse
      match endLine .headerValue (rest.dropWhile isValueByte) with
      | .error e => .error e
      | .ok rest => .ok ((ascii name, value), rest)

/-- Takes headers up to an empty line, at most `room` of them. -/
def takeHeaders : (room : Nat) → Bytes → Except HeadError (List (String × Bytes) × Bytes)
  | _, [] => .error .truncated
  | room, b :: bs =>
    if b = 0x0d || b = 0x0a then do return ([], ← endLine .newLine (b :: bs))
    else do
      let (header, rest) ← takeHeader (b :: bs)
      match room with
      | 0 => throw .tooManyHeaders
      | room + 1 =>
        let (headers, rest) ← takeHeaders room rest
        return (header :: headers, rest)

/-- Reads a head, and gives back the octets behind it. -/
def parse (bs : Bytes) : Except HeadError (ResponseHead × Bytes) := do
  let bs ← skipEmptyLines bs
  let (version, bs) ← takeVersion bs
  let bs ← takeSpace bs
  let (status, bs) ← takeDigits 0 3 bs
  let (reason, bs) ← takeReason bs
  let (headers, bs) ← takeHeaders maxHeaders bs
  if status < 100 then throw .statusCode
  if headers.any fun h => maxNameLength < h.1.length then throw .longHeaderName
  let headers := headers.foldl (fun hs h => hs.append h.1 h.2) {}
  return ({ version, status, reason, headers }, bs)

end ResponseHead

end WebSocket.Http
