/-
WebSocket/Handshake/Request.lean

The request that asks a server for an upgrade.

A request is made for a URI with one of four schemes and a host.  Its key is
sixteen octets in Base64, random unless another is set.  `headLines` are the lines
of the request, and `encode` is what is sent.
-/
import WebSocket.Encoding.Base64
import WebSocket.Extension.Basic
import WebSocket.Handshake.Error
import WebSocket.Http.Headers

namespace WebSocket.Handshake

/-- A request for an upgrade. -/
structure Request where
  /-- The host and what belongs to it, as it stands in the URI. -/
  host : String
  /-- The path and query that are asked for. -/
  resource : String
  key : String
  origin : Option String := none
  /-- The subprotocols that are offered. -/
  protocols : List String := []
  /-- The extensions that are offered. -/
  extensions : List Extension.Config := []
  /-- Further headers. -/
  headers : Http.Headers := {}
  deriving DecidableEq, Repr

namespace Request

/-- The number of octets that a key stands for. -/
def keyLength : Nat := 16

/-- The schemes of the URIs that requests are made for. -/
def schemes : List String := ["ws", "wss", "http", "https"]

/-- The request for a URI, with a key made of random octets. -/
def ofUri (uri : Http.Uri) (nonce : Vector UInt8 keyLength) : Except RequestError Request :=
  match uri.scheme with
  | none => .error (.missingScheme (String.ofList uri.render))
  | some scheme =>
    if !schemes.contains (String.ofList scheme) then
      .error (.unsupportedScheme (String.ofList scheme))
    else if (Http.Uri.hostOf uri.authority).isEmpty then
      .error (.missingHost (String.ofList uri.render))
    else .ok
      { host := String.ofList uri.authority
        resource := String.ofList uri.pathAndQuery
        key := String.ofList (Base64.encode nonce.toList) }

/-- The request for a URI in its written form. -/
def new (uri : String) (nonce : Vector UInt8 keyLength) : Except RequestError Request :=
  match Http.Uri.parse uri with
  | .error cause => .error (.uri uri cause)
  | .ok parsed => ofUri parsed nonce

/-- Sets the key, which has to be one. -/
def setKey (r : Request) (key : String) : Except RequestError Request :=
  match Base64.decode? key.toList with
  | some nonce => if nonce.length = keyLength then .ok { r with key } else .error (.key key)
  | none => .error (.key key)

/-- Sets the origin. -/
def setOrigin (r : Request) (origin : String) : Request :=
  { r with origin := some origin }

/-- Offers a subprotocol. -/
def addProtocol (r : Request) (name : String) : Request :=
  { r with protocols := r.protocols ++ [name] }

/-- Offers an extension. -/
def addExtension (r : Request) (config : Extension.Config) : Request :=
  { r with extensions := r.extensions ++ [config] }

/-- Offers an extension with the parameters that it has. -/
def offerExtension {ε : Type} [Extension ε] (r : Request) (e : ε) : Request :=
  r.addExtension (Extension.offer e)

/-- The longest header name. -/
def maxNameLength : Nat := 65535

/-- Adds a header. -/
def addHeader (r : Request) (name value : String) : Except RequestError Request :=
  let octets := Text.Utf8.encode value.toList
  if !Http.isToken name.toList || maxNameLength < name.length then .error (.headerName name)
  else if !octets.all Http.isValueByte then .error (.headerValue value)
  else .ok { r with headers := r.headers.append name octets }

/-- Texts with a comma and a space between them. -/
def commaSeparated (texts : List (List Char)) : List Char :=
  [',', ' '].intercalate texts

/-- A header line, without its end. -/
def headerLine (name : String) (value : List Char) : Bytes :=
  Text.Utf8.encode (name.toList ++ [':', ' '] ++ value)

/-- The lines of a request, without their ends. -/
def headLines (r : Request) : List Bytes :=
  [Text.Utf8.encode ("GET ".toList ++ r.resource.toList ++ " HTTP/1.1".toList),
   headerLine "Host" r.host.toList,
   headerLine "Upgrade" "websocket".toList,
   headerLine "Connection" "Upgrade".toList,
   headerLine "Sec-WebSocket-Key" r.key.toList]
  ++ (r.origin.toList.map fun origin => headerLine "Origin" origin.toList)
  ++ (if r.protocols.isEmpty then []
      else [headerLine "Sec-WebSocket-Protocol"
        (commaSeparated (r.protocols.map String.toList))])
  ++ (if r.extensions.isEmpty then []
      else [headerLine "Sec-WebSocket-Extensions"
        (commaSeparated (r.extensions.map Extension.Config.render))])
  ++ (r.headers.toList.map fun h => headerLine h.1 [] ++ h.2)
  ++ [headerLine "Sec-WebSocket-Version" "13".toList]

/-- The end of a line. -/
def lineEnd : Bytes := [0x0d, 0x0a]

/-- A request as it is sent: its lines and an empty one. -/
def encode (r : Request) : Bytes :=
  (r.headLines.flatMap fun line => line ++ lineEnd) ++ lineEnd

end Request

end WebSocket.Handshake
