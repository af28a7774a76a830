/-
WebSocket/Http/Headers.lean

The headers of a message.

Names are the same if they are equal but for case, and are kept in small letters.
The headers are listed by name, in the order in which the names came first, and
under each name in the order in which they came.
-/
import WebSocket.Http.Token

namespace WebSocket.Http

/-- Whether an octet may stand in a header value. -/
def isValueByte (b : UInt8) : Bool :=
  b == 0x09 || (0x20 ≤ b && b ≠ 0x7f)

/-- Whether a header value consists of visible ASCII characters, spaces and tabs. -/
def isVisible (value : Bytes) : Bool :=
  value.all fun b => isValueByte b && b < 0x80

/-- A name in small letters. -/
def lowerName (name : String) : String :=
  String.ofList (name.toList.map Char.toLower)

/-- Headers: names, each with its values. -/
structure Headers where
  groups : List (String × List Bytes) := []
  deriving DecidableEq, Repr, Inhabited

namespace Headers

/-- The values under a name, the first one first. -/
def getAll (hs : Headers) (name : String) : List Bytes :=
  (hs.groups.lookup (lowerName name)).getD []

/-- The first value under a name. -/
def get? (hs : Headers) (name : String) : Option Bytes :=
  (hs.getAll name).head?

/-- Adds a value to those under a name, which is given in small letters. -/
def insertInto (name : String) (value : Bytes) :
    List (String × List Bytes) → List (String × List Bytes)
  | [] => [(name, [value])]
  | group :: groups =>
    if group.1 = name then (group.1, group.2 ++ [value]) :: groups
    else group :: insertInto name value groups

/-- Adds a header behind the others of its name. -/
def append (hs : Headers) (name : String) (value : Bytes) : Headers :=
  { groups := insertInto (lowerName name) value hs.groups }

/-- All headers, in order. -/
def toList (hs : Headers) : List (String × Bytes) :=
  hs.groups.flatMap fun group => group.2.map fun value => (group.1, value)

end Headers

end WebSocket.Http
