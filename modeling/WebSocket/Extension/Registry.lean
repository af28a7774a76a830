/-
WebSocket/Extension/Registry.lean

The extensions that can be negotiated.

A registry holds, under each name, an extension in its initial state.  Names are
the same if they are equal but for case, and a later registration takes the place
of an earlier one with the same name.  From what the peer agreed to, `instantiate`
makes the extensions of a channel, in the order of the peer's list; whatever is
unknown or refuses its parameters is left out.
-/
import WebSocket.Extension.Deflate
import WebSocket.Extension.Either
import WebSocket.Extension.Identity
import WebSocket.Flate.Inflater

namespace WebSocket.Extension

/-- Extensions by name, each in its initial state. -/
structure Registry (ε : Type) where
  entries : List (String × ε) := []
  deriving Repr

namespace Registry

variable {ε φ : Type}

/-- Whether two names are the same. -/
def sameName (s t : String) : Bool :=
  Text.eqIgnoreCase s.toList t.toList

/-- Registers an extension, in place of any other of that name. -/
def register (r : Registry ε) (name : String) (e : ε) : Registry ε :=
  { entries := (r.entries.filter fun entry => !sameName entry.1 name) ++ [(name, e)] }

/-- The extension of this name. -/
def find? (r : Registry ε) (name : String) : Option ε :=
  (r.entries.find? fun entry => sameName entry.1 name).map Prod.snd

/-- Whether there is an extension of this name. -/
def isRegistered (r : Registry ε) (name : String) : Bool :=
  r.entries.any fun entry => sameName entry.1 name

/-- Applies a function to every extension. -/
def map (f : ε → φ) (r : Registry ε) : Registry φ :=
  { entries := r.entries.map fun entry => (entry.1, f entry.2) }

/-- The extension for one configuration, if it is registered and accepts the
parameters. -/
def instance? [Extension ε] (r : Registry ε) (c : Config) : Option ε :=
  match r.find? c.name with
  | none => none
  | some e =>
    match Extension.configure e c.params with
    | (e, .ok ()) => some e
    | (_, .error _) => none

/-- The extensions for a list of configurations. -/
def instantiate [Extension ε] (r : Registry ε) (cs : List Config) : List ε :=
  cs.filterMap r.instance?

end Registry

/-- The extension `permessage-deflate` with the compressor and the decompressor of
this library. -/
abbrev MessageDeflate := Deflate Flate.LzCompressor Flate.Inflater

/-- The extensions of this library. -/
abbrev Standard := Identity ⊕ MessageDeflate

/-- The extensions that are negotiated unless others are asked for. -/
def Registry.standard : Registry Standard :=
  (Registry.register {} Identity.extensionName (.inl {})).register
    Deflate.extensionName (.inr {})

end WebSocket.Extension
