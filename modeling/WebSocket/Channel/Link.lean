/-
WebSocket/Channel/Link.lean

The sending half of a channel, together with the log of its endpoint.

A frame is accepted or refused at once (`accept`): it gets a mask, passes the
extensions on their way out, is written down (`prepare`), and waits behind what was
accepted before.  Whoever then finds that nobody is writing gives all that waits to the
endpoint (`flush`), so that nothing is left behind (`pending_flushThrough`).

Writing may make the endpoint send more: `onWrite` says what is sent from within
the coming writes.  What is accepted meanwhile waits like the rest, so that all
frames reach the endpoint in the order in which they were accepted.
-/
import WebSocket.Channel.Outgoing
import WebSocket.Event
import WebSocket.Pipeline

namespace WebSocket

/-- The sending half of a channel. -/
structure Link (ε : Type) where
  /-- What has happened so far, the latest first. -/
  log : List Event := []
  /-- What is sent from within the coming writes, one list for each. -/
  onWrite : List (List Outgoing) := []
  /-- The extensions, once the channel is there. -/
  chain : Option (Pipeline ε) := none
  /-- The reserved bits that may be written. -/
  inUse : ReservedBits := {}
  /-- What is behind the extensions and is not written down yet. -/
  egress : List Frame := []
  /-- What was accepted and is not written yet. -/
  pending : List Bytes := []
  /-- Whether somebody is writing. -/
  writing : Bool := false
  /-- Whether a close frame was to be sent. -/
  closeSent : Bool := false
  /-- Whether the endpoint was closed. -/
  closed : Bool := false
  /-- Where the masks come from. -/
  keys : Nat → UInt32
  /-- The number of masks that were used. -/
  drawn : Nat := 0

namespace Link

variable {ε : Type}

/-- What has happened, in order. -/
def events (l : Link ε) : List Event :=
  l.log.reverse

/-- Notes an event. -/
def record (l : Link ε) (e : Event) : Link ε :=
  { l with log := e :: l.log }

@[simp] theorem events_record (l : Link ε) (e : Event) :
    (l.record e).events = l.events ++ [e] := by
  simp [events, record]

/-- Whether frames can be sent. -/
def isOpen (l : Link ε) : Bool :=
  l.chain.isSome && !l.closed && !l.closeSent

/-- The refusal in a result. -/
def refusal {α : Type} : Except ChannelError α → Option ChannelError
  | .ok _ => none
  | .error e => some e

variable [Extension ε]

/-- Takes a frame on its way in through the extensions. -/
def incoming (l : Link ε) (f : Frame) : Link ε × Except ExtensionError Frame :=
  match l.chain with
  | none => (l, .ok f)
  | some p =>
    let (p, r) := p.incoming f
    ({ l with chain := some p }, r)

/-- Writes down frames, one behind the other.  Where one cannot be written, those
behind it stay where they are, and what was written down is lost. -/
def writeDown (inUse : ReservedBits) (buffer : Bytes) :
    List Frame → List Frame × Except FrameError Bytes
  | [] => ([], .ok buffer)
  | f :: fs =>
    match f.append inUse buffer with
    | (_, .error e) => (fs, .error e)
    | (buffer, .ok ()) => writeDown inUse buffer fs

/-- Takes a frame out through the extensions and writes it down, or says why not. -/
def prepare (l : Link ε) (f : Frame) : Link ε × Except ChannelError Bytes :=
  if l.closed || l.closeSent then (l, .error .closed)
  else match l.chain with
    | none => (l, .error .notConnected)
    | some p =>
      match p.outgoing { f with masked := true, mask := l.keys l.drawn } with
      | (p, r) =>
        let l := { l with chain := some p, closeSent := f.opcode = .close, drawn := l.drawn + 1 }
        match r with
        | .error e => (l, .error (.extension e))
        | .ok g =>
          match writeDown l.inUse [] (l.egress ++ [g]) with
          | (egress, .error e) => ({ l with egress }, .error (.codec e))
          | (egress, .ok octets) => ({ l with egress }, .ok octets)

/-- Accepts a frame, which then waits to be written, or says why not. -/
def accept (l : Link ε) (f : Frame) : Link ε × Except ChannelError Unit :=
  match l.prepare f with
  | (l, .error e) => (l, .error e)
  | (l, .ok octets) =>
    let pending := if octets.isEmpty then l.pending else l.pending ++ [octets]
    (record { l with pending } (.accept f octets), .ok ())

/-- Accepts what is sent from within a write. -/
def acceptNested (l : Link ε) (o : Outgoing) : Link ε :=
  match o.toFrame with
  | .error e => l.record (.nested (some e))
  | .ok f =>
    let (l, r) := l.accept f
    l.record (.nested (refusal r))

/-- Gives what waits to the endpoint, piece by piece, until nothing is left.  The
first argument says what is sent from within these writes. -/
def flushThrough : List (List Outgoing) → Link ε → Link ε
  | [], l =>
    { l with
      log := (l.pending.map .write).reverse ++ l.log
      onWrite := []
      pending := []
      writing := false }
  | sends :: later, l =>
    match l.pending with
    | [] => { l with onWrite := sends :: later, writing := false }
    | octets :: pending =>
      flushThrough later ((sends.foldl acceptNested { l with pending }).record (.write octets))

/-- Nothing is left behind, and nobody is writing any more. -/
theorem pending_flushThrough (sends : List (List Outgoing)) (l : Link ε) :
    (flushThrough sends l).pending = [] ∧ (flushThrough sends l).writing = false := by
  induction sends generalizing l with
  | nil => exact ⟨rfl, rfl⟩
  | cons sends later ih =>
    rcases h : l.pending with - | ⟨octets, pending⟩
    · simp [flushThrough, h]
    · simp only [flushThrough, h]
      exact ih _

/-- Gives what waits to the endpoint. -/
def flush (l : Link ε) : Link ε :=
  flushThrough l.onWrite { l with onWrite := [], writing := true }

/-- Sends a frame: once it is accepted, it is written, unless somebody is writing
already. -/
def send (l : Link ε) (f : Frame) : Link ε × Except ChannelError Unit :=
  match l.accept f with
  | (l, .error e) => (l, .error e)
  | (l, .ok ()) => (if l.writing then l else l.flush, .ok ())

/-- Sends what an application has to send. -/
def submit (l : Link ε) (o : Outgoing) : Link ε × Except ChannelError Unit :=
  match o.toFrame with
  | .error e => (l, .error e)
  | .ok f => l.send f

/-- Sends something from within a write that does not belong to the channel. -/
def submitNested (l : Link ε) (o : Outgoing) : Link ε :=
  let (l, r) := l.submit o
  l.record (.nested (refusal r))

/-- Gives octets to the endpoint that do not belong to the channel. -/
def transmit (l : Link ε) (octets : Bytes) : Link ε :=
  match l.onWrite with
  | [] => l.record (.write octets)
  | sends :: onWrite =>
    (sends.foldl submitNested { l with onWrite }).record (.write octets)

end Link

end WebSocket
