/-
WebSocket/Handshake/Validation.lean

Whether a response accepts a request.

The checks are made in a fixed order, and the first that fails gives the error.
Only a response that passes all of them gets to know the extensions and the
subprotocol that it agrees to.
-/
import WebSocket.Handshake.Accept
import WebSocket.Handshake.Request
import WebSocket.Handshake.Response
import WebSocket.Text.Quoted

namespace WebSocket.Handshake

/-- The header with the answer to the key. -/
def acceptHeader : String := "Sec-WebSocket-Accept"

/-- The header with the extensions. -/
def extensionsHeader : String := "Sec-WebSocket-Extensions"

/-- The header with the subprotocol. -/
def protocolHeader : String := "Sec-WebSocket-Protocol"

/-- The characters that octets stand for one by one. -/
def latin (bs : Bytes) : List Char :=
  bs.map fun b => Char.ofNat b.toNat

/-- Whether a token is in a list that is separated by commas. -/
def listsToken (token : String) (value : Bytes) : Bool :=
  (Text.pieces ',' (latin value)).any fun piece =>
    Text.eqIgnoreCase (Text.trim piece) token.toList

/-- Looks for a token in the lines of a header, one after the other. -/
def expectToken (name token : String) : List Bytes → Except Error Unit
  | [] => .error (.unexpectedHeader name)
  | value :: values =>
    if !Http.isVisible value then .error (.unexpectedHeader name)
    else if listsToken token value then .ok ()
    else expectToken name token values

/-- Checks that a header is there and lists a token. -/
def expectHeader (headers : Http.Headers) (name token : String) : Except Error Unit :=
  match headers.getAll name with
  | [] => .error (.headerNotFound name)
  | values => expectToken name token values

/-- Checks the answer to the key. -/
def checkAccept (headers : Http.Headers) (key : String) : Except Error Unit :=
  match headers.get? acceptHeader with
  | none => .error (.headerNotFound acceptHeader)
  | some value =>
    if value = Text.Utf8.encode (acceptKey (Text.Utf8.encode key.toList)).toList then .ok ()
    else .error .acceptMismatch

/-- Reads a header value as text. -/
def readText (value : Bytes) : Except Error (List Char) :=
  match Text.Utf8.decode value with
  | .ok text => .ok text
  | .error cause => .error (.utf8 cause)

/-- Reads the entries of an extension header. -/
def readEntries : List (List Char) → Except Error (List Extension.Config)
  | [] => .ok []
  | entry :: entries =>
    match Extension.Config.parse? entry with
    | none => .error (.unexpectedHeader extensionsHeader)
    | some config => do return config :: (← readEntries entries)

/-- Reads the lines of the extension header. -/
def readExtensions : List Bytes → Except Error (List Extension.Config)
  | [] => .ok []
  | value :: values => do
    let text ← readText value
    let configs ← readEntries (Text.Quoted.split ',' text)
    return configs ++ (← readExtensions values)

/-- Reads the subprotocol, which has to be one of those that were offered. -/
def readProtocol (headers : Http.Headers) (offered : List String) :
    Except Error (Option String) :=
  match headers.get? protocolHeader with
  | none => .ok none
  | some value => do
    let name := String.ofList (Text.trim (← readText value))
    if offered.contains name then return some name else throw .unsolicitedProtocol

/-- Checks that a response accepts a request, and reads from it what was agreed
upon. -/
def validate (request : Request) (response : Response) : Except Error Response := do
  if response.version ≠ .http11 then throw .unsupportedHttpVersion
  if response.status ≠ 101 then throw (.unexpectedStatus response.status)
  expectHeader response.headers "Upgrade" "websocket"
  expectHeader response.headers "Connection" "upgrade"
  checkAccept response.headers request.key
  let extensions ← readExtensions (response.headers.getAll extensionsHeader)
  let protocol ← readProtocol response.headers request.protocols
  return { response with extensions, protocol }

end WebSocket.Handshake
