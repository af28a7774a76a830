/-
WebSocket/Handshake/Error.lean

Why a handshake fails.

Each cause belongs to a class (`Kind`).  What goes wrong with the transport or
with the protocol itself is a fault of the stream, after which nothing more can
be said to the peer; the other causes leave the stream intact.
-/
import WebSocket.Http.Error
import WebSocket.Http.Uri
import WebSocket.Text.Escaped
import WebSocket.Text.Utf8

namespace WebSocket.Handshake

/-- Why a request cannot be made. -/
inductive RequestError where
  | uri (text : String) (cause : Http.UriError)
  | unsupportedScheme (scheme : String)
  | missingScheme (text : String)
  | missingHost (text : String)
  | key (text : String)
  | headerName (name : String)
  | headerValue (value : String)
  /-- Another reason. -/
  | other (message : String)
  deriving DecidableEq, Repr

/-- The wording of an error. -/
def RequestError.message : RequestError → String
  | uri text cause => text ++ ": " ++ cause.message
  | unsupportedScheme scheme => "unsupported scheme: " ++ scheme
  | missingScheme text => "missing scheme: " ++ text
  | missingHost text => "missing host: " ++ text
  | key text => "invalid key: " ++ Text.Escaped.quote text
  | headerName name =>
    "header name " ++ Text.Escaped.quote name ++ ": invalid HTTP header name"
  | headerValue value =>
    "header value " ++ Text.Escaped.quote value ++ ": failed to parse header value"
  | other message => message

/-- The classes of causes. -/
inductive Kind where
  | transport
  | protocol
  | validation
  | construction
  deriving DecidableEq, Repr

/-- Whether nothing more can be said to the peer. -/
def Kind.isStreamFault : Kind → Bool
  | transport | protocol => true
  | validation | construction => false

/-- Why a handshake fails. -/
inductive Error where
  /-- The transport failed. -/
  | io (message : String)
  /-- The peer ended the stream before its answer was complete. -/
  | closed
  | aborted
  /-- The task that writes the request was refused. -/
  | spawn
  /-- The answer has no proper head. -/
  | http (cause : Http.HeadError)
  /-- The head of the answer is longer than `limit` octets. -/
  | headTooLarge (limit : Nat)
  | unsupportedHttpVersion
  | unexpectedStatus (status : Nat)
  | headerNotFound (name : String)
  | unexpectedHeader (name : String)
  /-- The answer was not made for our key. -/
  | acceptMismatch
  /-- A subprotocol was chosen that was not offered. -/
  | unsolicitedProtocol
  | utf8 (cause : Text.Utf8.Error)
  | invalidRequest (cause : RequestError)
  deriving DecidableEq, Repr

namespace Error

/-- The class of an error. -/
def kind : Error → Kind
  | io _ | closed | aborted | spawn => .transport
  | http _ | headTooLarge _ => .protocol
  | unsupportedHttpVersion | unexpectedStatus _ | headerNotFound _ | unexpectedHeader _
  | acceptMismatch | unsolicitedProtocol | utf8 _ => .validation
  | invalidRequest _ => .construction

/-- The wording of the error behind an error, if there is one. -/
def source? : Error → Option String
  | io message => some message
  | spawn => some "Executor is shutdown"
  | http cause => some cause.message
  | utf8 cause => some cause.message
  | _ => none

/-- The wording of an error. -/
def message : Error → String
  | io message => "i/o error: " ++ message
  | closed => "connection closed before handshake completed"
  | aborted => "handshake aborted"
  | spawn => "failed to spawn request task: Executor is shutdown"
  | http cause => "http parser error: " ++ cause.message
  | headTooLarge limit => s!"response head exceeds {limit} bytes"
  | unsupportedHttpVersion => "http version was not 1.1"
  | unexpectedStatus status => s!"unexpected response status: {status}"
  | headerNotFound name => "header " ++ name ++ " not found"
  | unexpectedHeader name => "header " ++ name ++ " had unexpected value"
  | acceptMismatch => "websocket key mismatch"
  | unsolicitedProtocol => "unsolicited protocol returned"
  | utf8 cause => "utf-8 decoding error: " ++ cause.message
  | invalidRequest cause => "invalid handshake request: " ++ cause.message

end Error

end WebSocket.Handshake
