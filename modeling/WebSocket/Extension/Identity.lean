/-
WebSocket/Extension/Identity.lean

An extension that leaves every frame as it is.  It remembers the parameters that
were agreed upon, and nothing else.
-/
import WebSocket.Extension.Basic

namespace WebSocket.Extension

/-- An extension that changes nothing. -/
structure Identity where
  agreed : List Param := []
  deriving DecidableEq, Repr

/-- The name under which it is negotiated. -/
def Identity.extensionName : String := "identity"

instance : Extension Identity where
  name _ := Identity.extensionName
  params e := e.agreed
  reservedBits _ := {}
  configure _ params := ({ agreed := params }, .ok ())
  encode e frame := (e, .ok frame)
  decode e frame := (e, .ok frame)

end WebSocket.Extension
