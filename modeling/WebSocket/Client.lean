/-
WebSocket/Client.lean

A client: an endpoint, its handler, and what the handler runs on.

The endpoint has one handler at a time, at first a handshake and later a channel.
When a handler has put another one in its place, that one is called (`opened`) as
soon as the call of the first has returned.  The sending half belongs to the client
and outlives its handlers.

All that can befall a client is an `Action`, and `run` is what a list of them comes
to.
-/
import WebSocket.Handshake.Upgrade

namespace WebSocket

/-- What handles an endpoint. -/
inductive Handler (σ ε : Type) where
  | upgrade (u : Handshake.Upgrade σ ε)
  | connection (c : Connection σ)

/-- A client. -/
structure Client (σ ε : Type) extends Host ε where
  /-- The handler of the endpoint, unless it was dropped. -/
  handler : Option (Handler σ ε) := none

namespace Client

variable {σ ε : Type}

/-- What has happened, in order. -/
def events (c : Client σ ε) : List Event :=
  c.link.events

/-- Lets something arrive, piece by piece. -/
def push (c : Client σ ε) (pieces : List Inbound) : Client σ ε :=
  { c with input := c.input ++ pieces }

/-- Says what is sent from within the next write. -/
def onNextWrite (c : Client σ ε) (sends : List Outgoing) : Client σ ε :=
  { c with link := { c.link with onWrite := [sends] } }

/-- Drops the handler.  A handshake that is not done fails by this. -/
def dropHandler (c : Client σ ε) : Client σ ε :=
  match c.handler with
  | some (.upgrade { state := .done, .. }) | some (.connection _) | none =>
    { c with handler := none }
  | some (.upgrade _) =>
    { c with handler := none, link := c.link.record (.failed .aborted) }

/-- A client that starts with a handshake. -/
def ofUpgrade (host : Host ε) (u : Handshake.Upgrade σ ε) : Client σ ε :=
  { host with handler := some (.upgrade u) }

/-- A client that starts with a channel. -/
def ofChannel (channel : Channel σ ε) : Client σ ε :=
  { link := channel.link, handler := some (.connection channel.toConnection) }

variable [Session σ] [Extension ε]

/-- Sends something. -/
def submit (c : Client σ ε) (o : Outgoing) : Client σ ε × Except ChannelError Unit :=
  let (link, r) := c.link.submit o
  ({ c with link }, r)

/-- Runs the tasks that wait. -/
def runTasks (c : Client σ ε) : Client σ ε :=
  { c with link := c.tasks.foldl Link.transmit c.link, tasks := [] }

/-- Calls a channel. -/
def callConnection (c : Client σ ε) (k : Connection σ) (call : Callback) : Client σ ε :=
  let (channel, input) := Channel.react { k with link := c.link } c.input call
  { c with link := channel.link, input, handler := some (.connection channel.toConnection) }

/-- Goes on with what a call of an upgrade has come to: a channel that was put in its
place is called at once. -/
def follow (turn : Handshake.Upgrade.Turn σ ε) : Client σ ε :=
  match turn.successor with
  | none => { turn.host with handler := some (.upgrade turn.upgrade) }
  | some k => callConnection { turn.host with handler := none } k .opened

/-- Calls the handler. -/
def call (c : Client σ ε) (call : Callback) : Client σ ε :=
  match c.handler with
  | none => c
  | some (.connection k) => c.callConnection k call
  | some (.upgrade u) => follow (u.react c.toHost call)

/-! ### Runs -/

/-- What can befall a client. -/
inductive Action where
  /-- Something arrives at the endpoint, piece by piece. -/
  | arrive (pieces : List Inbound)
  /-- The endpoint calls its handler. -/
  | call (call : Callback)
  /-- The application sends something. -/
  | submit (o : Outgoing)
  /-- It is settled what is sent from within the next write. -/
  | onNextWrite (sends : List Outgoing)
  /-- The executor runs the tasks that wait. -/
  | runTasks
  /-- The handler is dropped. -/
  | dropHandler
  deriving DecidableEq, Repr

/-- What is known when an action is over. -/
inductive Answer where
  | done
  /-- Whether there was a handler to be called. -/
  | called (handled : Bool)
  /-- Whether the application's frame was accepted. -/
  | sent (result : Except ChannelError Unit)
  /-- How many tasks were run. -/
  | ran (tasks : Nat)

/-- Lets an action befall a client. -/
def act (c : Client σ ε) : Action → Client σ ε × Answer
  | .arrive pieces => (c.push pieces, .done)
  | .call cb => (c.call cb, .called c.handler.isSome)
  | .submit o =>
    let (c, r) := c.submit o
    (c, .sent r)
  | .onNextWrite sends => (c.onNextWrite sends, .done)
  | .runTasks => (c.runTasks, .ran c.tasks.length)
  | .dropHandler => (c.dropHandler, .done)

/-- Lets one action after the other befall a client. -/
def run (c : Client σ ε) (actions : List Action) : Client σ ε :=
  actions.foldl (fun c a => (c.act a).1) c

theorem run_append (c : Client σ ε) (front back : List Action) :
    c.run (front ++ back) = (c.run front).run back :=
  List.foldl_append

end Client

end WebSocket
