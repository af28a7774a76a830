/-
WebSocket/Pipeline.lean

The way of frames through the extensions of a channel.

With the extensions `E₁, …, Eₙ` in the order of negotiation, a frame on its way
out passes `E₁`, then `E₂`, and so on to `Eₙ`; a frame on its way in passes them
the other way round.  Both ways share the states of the extensions.  Where an
extension refuses a frame, those behind it do not see it.

The reserved bits that any of the extensions claims are in use in both
directions.
-/
import WebSocket.Extension.Basic

namespace WebSocket

/-- The extensions of a channel, in the order of negotiation. -/
structure Pipeline (ε : Type) where
  extensions : List ε
  deriving Repr

namespace Pipeline

variable {ε : Type} [Extension ε]

/-- The reserved bits in use when those of these extensions come on top. -/
def claim (inUse : ReservedBits) (extensions : List ε) : ReservedBits :=
  extensions.foldl (fun bits e => bits.union (Extension.reservedBits e)) inUse

/-- Runs a frame through `encode` of each extension, from the first to the
last. -/
def encodeThrough : List ε → Frame → List ε × Except ExtensionError Frame
  | [], f => ([], .ok f)
  | e :: es, f =>
    match Extension.encode e f with
    | (e, .error err) => (e :: es, .error err)
    | (e, .ok f) =>
      let r := encodeThrough es f
      (e :: r.1, r.2)

/-- Runs a frame through `decode` of each extension, from the last to the
first. -/
def decodeThrough : List ε → Frame → List ε × Except ExtensionError Frame
  | [], f => ([], .ok f)
  | e :: es, f =>
    match decodeThrough es f with
    | (es, .error err) => (e :: es, .error err)
    | (es, .ok f) =>
      let r := Extension.decode e f
      (r.1 :: es, r.2)

/-- Takes a frame out: the frame that is to be written. -/
def outgoing (p : Pipeline ε) (f : Frame) : Pipeline ε × Except ExtensionError Frame :=
  let r := encodeThrough p.extensions f
  (⟨r.1⟩, r.2)

/-- Takes a frame in: the frame that is to be delivered. -/
def incoming (p : Pipeline ε) (f : Frame) : Pipeline ε × Except ExtensionError Frame :=
  let r := decodeThrough p.extensions f
  (⟨r.1⟩, r.2)

/-- The names of the extensions. -/
def names (p : Pipeline ε) : List String :=
  p.extensions.map Extension.name

end Pipeline

/-- A pipeline, and the reserved bits in use on either side of it. -/
structure Pipeline.Built (ε : Type) where
  pipeline : Pipeline ε
  /-- The bits that may be written. -/
  encoder : ReservedBits
  /-- The bits that may be read. -/
  decoder : ReservedBits
  deriving Repr

/-- Puts extensions between an encoder and a decoder, on which their reserved bits
come into use. -/
def Pipeline.build {ε : Type} [Extension ε] (extensions : List ε)
    (encoder decoder : ReservedBits) : Pipeline.Built ε :=
  ⟨⟨extensions⟩, claim encoder extensions, claim decoder extensions⟩

end WebSocket
