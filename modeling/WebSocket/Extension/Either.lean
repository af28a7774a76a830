/-
WebSocket/Extension/Either.lean

Extensions of two kinds in one list: the disjoint sum of two kinds of extensions
is one again, and each operation leaves an extension in its kind.
-/
import WebSocket.Extension.Basic

namespace WebSocket.Extension

variable {α β : Type} [Extension α] [Extension β]

instance : Extension (α ⊕ β) where
  name
    | .inl e => name e
    | .inr e => name e
  params
    | .inl e => params e
    | .inr e => params e
  reservedBits
    | .inl e => reservedBits e
    | .inr e => reservedBits e
  configure
    | .inl e, ps => ((configure e ps).1 |> .inl, (configure e ps).2)
    | .inr e, ps => ((configure e ps).1 |> .inr, (configure e ps).2)
  encode
    | .inl e, f => ((encode e f).1 |> .inl, (encode e f).2)
    | .inr e, f => ((encode e f).1 |> .inr, (encode e f).2)
  decode
    | .inl e, f => ((decode e f).1 |> .inl, (decode e f).2)
    | .inr e, f => ((decode e f).1 |> .inr, (decode e f).2)

end WebSocket.Extension
