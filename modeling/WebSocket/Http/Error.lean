/-
WebSocket/Http/Error.lean

Why octets are no head of a response.
-/

namespace WebSocket.Http

/-- Why octets are no head of a response. -/
inductive HeadError where
  /-- A carriage return without a line feed. -/
  | newLine
  | version
  | status
  | headerName
  | headerValue
  | tooManyHeaders
  /-- A status below 100. -/
  | statusCode
  /-- A header name that is too long. -/
  | longHeaderName
  /-- The head is not over. -/
  | truncated
  /-- Another reason. -/
  | other (message : String)
  deriving DecidableEq, Repr

/-- The wording of an error. -/
def HeadError.message : HeadError → String
  | newLine => "invalid new line"
  | version => "invalid HTTP version"
  | status => "invalid response status"
  | headerName => "invalid header name"
  | headerValue => "invalid header value"
  | tooManyHeaders => "too many headers"
  | statusCode => "invalid status code"
  | longHeaderName => "invalid HTTP header name"
  | truncated => "truncated response head"
  | other message => message

end WebSocket.Http
