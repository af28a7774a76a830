/-
WebSocket/Handshake/Upgrade.lean

The handshake at work: the request is sent, the response is read and checked, and
the endpoint is handed over to a channel.

Design.  An upgrade goes through four states, and in each of them there is one kind
of call that takes it further; besides, it can be aborted until it is done.  All
other calls are ignored.  The request is written by a task, which an executor runs
some time after the endpoint has opened.

The outcome is noted in the log (`Event.upgraded` or `Event.failed`) when the state
becomes `done`.  After a failure the endpoint is closed; if the stream is still
sound, the peer is told first that nothing more will come.
-/
import WebSocket.BufferPool
import WebSocket.Channel.Connection
import WebSocket.Extension.Registry
import WebSocket.Handshake.Validation

namespace WebSocket

/-- What a client runs on. -/
structure Host (ε : Type) where
  link : Link ε
  /-- What has arrived. -/
  input : List Inbound := []
  pool : BufferPool := {}
  /-- The tasks that wait for the executor: what they will write. -/
  tasks : List Bytes := []
  /-- Whether the executor takes tasks. -/
  takesTasks : Bool := true

/-- Notes an event. -/
def Host.record {ε : Type} (h : Host ε) (e : Event) : Host ε :=
  { h with link := h.link.record e }

namespace Handshake

/-- How far an upgrade has come.  Until it is done, it keeps the application. -/
inductive Upgrade.State (σ : Type) where
  /-- The endpoint has not opened yet. -/
  | connecting (session : σ)
  /-- The request is being written. -/
  | sending (session : σ)
  /-- The response is awaited. -/
  | reading (session : σ)
  /-- The outcome is known. -/
  | done
  deriving DecidableEq, Repr

/-- The application, until the upgrade is done. -/
def Upgrade.State.session? {σ : Type} : Upgrade.State σ → Option σ
  | connecting session | sending session | reading session => some session
  | done => none

/-- A handshake. -/
structure Upgrade (σ ε : Type) where
  request : Request
  reader : HeadReader := { limit := HeadReader.defaultLimit }
  /-- The extensions that can be agreed upon. -/
  registry : Extension.Registry ε
  state : Upgrade.State σ

namespace Upgrade

variable {σ ε : Type}

/-- What one call of an upgrade comes to. -/
structure Turn (σ ε : Type) where
  upgrade : Upgrade σ ε
  host : Host ε
  /-- The channel that the endpoint is handed over to. -/
  successor : Option (Connection σ) := none

/-- Goes on in another state. -/
def become (u : Upgrade σ ε) (state : State σ) (host : Host ε) : Turn σ ε :=
  { upgrade := { u with state }, host }

/-- Reports a failure and closes the endpoint. -/
def fail (u : Upgrade σ ε) (host : Host ε) (cause : Error) : Turn σ ε :=
  let host := host.record (.failed cause)
  let host := if cause.kind.isStreamFault then host else host.record .shutdownOutput
  u.become .done (host.record .close)

/-- Hands the writing of the request to the executor. -/
def opened (u : Upgrade σ ε) (host : Host ε) : Turn σ ε :=
  match u.state with
  | .connecting session =>
    if host.takesTasks then
      u.become (.sending session) { host with tasks := host.tasks ++ [u.request.encode] }
    else u.fail host .spawn
  | _ => { upgrade := u, host }

/-- Once the request is written, waits for the response. -/
def written (u : Upgrade σ ε) (host : Host ε) (failure : Option String) : Turn σ ε :=
  match u.state with
  | .sending session =>
    match failure with
    | none => u.become (.reading session) (host.record .fillInterested)
    | some message => u.fail host (.io message)
  | _ => { upgrade := u, host }

/-- What reading comes to: the reader and the link behind it, what is left of the
input, and the response with the octets behind it, a demand for more octets
(`none`), or an error. -/
structure Reading (ε : Type) where
  reader : HeadReader
  link : Link ε
  input : List Inbound
  result : Except Error (Option (Response × Bytes))

/-- Reads until the response is complete or nothing more is there. -/
def read (reader : HeadReader) (link : Link ε) : List Inbound → Reading ε
  | [] => ⟨reader, link.record .fill, [], .ok none⟩
  | .empty :: input | .data [] :: input => ⟨reader, link.record .fill, input, .ok none⟩
  | .ended :: input => ⟨reader, link.record .fill, .ended :: input, .error .closed⟩
  | .failed message :: input => ⟨reader, link.record .fill, input, .error (.io message)⟩
  | .data octets :: input =>
    let parsed := reader.parse octets
    match parsed.result with
    | .error e => ⟨parsed.reader, link.record .fill, input, .error e⟩
    | .ok (some response) =>
      ⟨parsed.reader, link.record .fill, input, .ok (some (response, parsed.rest))⟩
    | .ok none => read parsed.reader (link.record .fill) input

/-- Hands the endpoint over to a channel, which starts with the octets that came
behind the response. -/
def handOver [Extension ε] [Session σ] (u : Upgrade σ ε) (host : Host ε) (session : σ)
    (response : Response) (leftover : Bytes) : Turn σ ε :=
  let extensions := u.registry.instantiate response.extensions
  let channel := Channel.connect (host.link.record (.upgraded response)) session extensions
  { upgrade := { u with state := .done }
    host := { host with link := channel.link.record .replaceHandler }
    successor := some { channel.toConnection with buffer := leftover.toArray } }

/-- Draws the conclusion from what reading has come to.  For the reading, a buffer of the
pool was used. -/
def conclude [Extension ε] [Session σ] (u : Upgrade σ ε) (host : Host ε) (session : σ)
    (r : Reading ε) : Turn σ ε :=
  let u := { u with reader := r.reader }
  let host :=
    { host with link := r.link, input := r.input, pool := host.pool.acquire.release }
  match r.result with
  | .error e => u.fail host e
  | .ok none => u.become (.reading session) (host.record .fillInterested)
  | .ok (some (response, leftover)) =>
    match validate u.request response with
    | .error e => u.fail host e
    | .ok response => u.handOver host session response leftover

/-- Reads the response. -/
def readable [Extension ε] [Session σ] (u : Upgrade σ ε) (host : Host ε) : Turn σ ε :=
  match u.state with
  | .reading session => u.conclude host session (read u.reader host.link host.input)
  | _ => { upgrade := u, host }

/-- Gives up, unless the outcome is known already. -/
def aborted (u : Upgrade σ ε) (host : Host ε) : Turn σ ε :=
  match u.state with
  | .done => { upgrade := u, host }
  | _ => u.fail host .aborted

/-- Reacts to a call of the endpoint. -/
def react [Extension ε] [Session σ] (u : Upgrade σ ε) (host : Host ε) : Callback → Turn σ ε
  | .opened => u.opened host
  | .readable => u.readable host
  | .written failure => u.written host failure
  | .aborted => u.aborted host

end Upgrade

end Handshake

end WebSocket
