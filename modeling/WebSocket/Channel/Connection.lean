/-
WebSocket/Channel/Connection.lean

A channel at work: frames are read from the octets that arrive, taken through the
extensions on their way in, and given to the application; pings and close frames
are answered.

A frame is dealt with to the end before the next one is read: the application gets
it and sends what it wants to, and then the answer follows.  Once a close frame was
answered, or anything has failed, the endpoint is closed and no further frame is
read.

The length of what is read bounds the work on it, as `deliver` and all that it calls
leave the decoder alone (`decoder_take`).  What arrives is put into a buffer first,
which is read only when it holds as much as the decoder needs to go on; this makes
no difference to what is done (`proceed_eq_process`).
-/
import WebSocket.Channel.Callback
import WebSocket.Channel.Link
import WebSocket.Channel.Session
import WebSocket.Frame.Decoder

namespace WebSocket

/-- The receiving half of a channel. -/
structure Connection (σ : Type) where
  decoder : Decoder := {}
  /-- The octets that are not decoded yet. -/
  buffer : Array UInt8 := #[]
  /-- The application. -/
  session : σ
  /-- Whether the endpoint was closed. -/
  closed : Bool := false
  deriving DecidableEq, Repr

/-- Both halves of a channel. -/
structure Channel (σ ε : Type) extends Connection σ where
  link : Link ε

namespace Channel

variable {σ ε : Type}

/-- Notes an event. -/
def record (c : Channel σ ε) (e : Event) : Channel σ ε :=
  { c with link := c.link.record e }

/-- Closes the endpoint. -/
def shutdown (c : Channel σ ε) : Channel σ ε :=
  { c with closed := true, link := { c.link with closed := true }.record .close }

variable [Extension ε]

/-- The channel for an application and extensions, on a link. -/
def connect (link : Link ε) (session : σ) (extensions : List ε) : Channel σ ε :=
  let built := Pipeline.build extensions link.inUse {}
  { decoder := { inUse := built.decoder }
    session
    link := { link with chain := some built.pipeline, inUse := built.encoder } }

/-! ### Dealing with a frame -/

/-- Answers a ping with a pong, unless the channel is about to be closed, and a
close frame with another one, unless ours came first; then the endpoint is closed. -/
def respond (c : Channel σ ε) (f : Frame) : Channel σ ε :=
  match f.opcode with
  | .ping =>
    let (link, r) := c.link.send (.single .pong f.payload)
    match r with
    | .ok () | .error .closed => { c with link }
    | .error _ => { c with link }.shutdown
  | .close =>
    -- Whether or not the answer can be sent, this is the end.
    let link :=
      if c.link.closeSent then c.link
      else (c.link.send (.single .close (Close.answer f.payload))).1
    { c with link }.shutdown
  | _ => c

theorem decoder_respond (c : Channel σ ε) (f : Frame) :
    (c.respond f).decoder = c.decoder := by
  unfold respond
  split
  · dsimp only
    split <;> rfl
  · rfl
  · rfl

/-- Sends what the application sends because of a frame. -/
def reply (link : Link ε) (o : Outgoing) : Link ε :=
  let (link, r) := link.submit o
  link.record (.reply (Link.refusal r))

variable [Session σ]

/-- Gives a frame to the application. -/
def deliver (c : Channel σ ε) (f : Frame) : Channel σ ε :=
  let (session, reaction) := Session.receive c.session f
  let link := reaction.sends.foldl reply (c.link.record (.deliver f))
  let c := { c with session, link }
  if reaction.refused then c.shutdown else c.respond f

/-- Deals with a frame that was read. -/
def take (c : Channel σ ε) (f : Frame) : Channel σ ε :=
  let (link, r) := c.link.incoming f
  let c := { c with link }
  match r with
  | .ok f => c.deliver f
  | .error _ => c.shutdown

theorem decoder_take (c : Channel σ ε) (f : Frame) : (c.take f).decoder = c.decoder := by
  unfold take
  dsimp only
  split
  · unfold deliver
    dsimp only
    split
    · rfl
    · exact decoder_respond ..
  · rfl

/-! ### Reading -/

/-- Deals with all frames that are complete in `input`, and leaves the octets behind
them in the buffer. -/
def process (c : Channel σ ε) (input : Bytes) : Channel σ ε :=
  if c.closed then { c with buffer := input.toArray }
  else
    let d := c.decoder.decode input
    let read := { c with decoder := d.decoder }
    match _h : d.result with
    | .ok none => { read with buffer := d.rest.toArray }
    | .error _ => { read with buffer := d.rest.toArray }.shutdown
    | .ok (some f) => process (read.take f) d.rest
termination_by c.decoder.work input
decreasing_by
  rw [decoder_take]
  exact Decoder.work_decode_lt _h

/-- Deals with all frames that are complete in the buffer, if there can be any. -/
def proceed (c : Channel σ ε) : Channel σ ε :=
  if c.closed || c.buffer.size < c.decoder.demand then c else c.process c.buffer.toList

theorem proceed_eq_process (c : Channel σ ε) : c.proceed = c.process c.buffer.toList := by
  unfold proceed
  split
  · next h =>
    rw [process]
    split
    · rfl
    · next hc =>
      have hd : c.buffer.toList.length < c.decoder.demand := by simpa [hc] using h
      rw [Decoder.decode_of_lt_demand hd]
  · rfl

/-- Waits for octets, unless the endpoint is closed. -/
def await (c : Channel σ ε) : Channel σ ε :=
  if c.closed then c else c.record .fillInterested

/-- Starts with the octets that came with the answer to the request. -/
def opened (c : Channel σ ε) : Channel σ ε :=
  c.proceed.await

/-- Deals with what has arrived, and gives back what is left of it when the endpoint
is closed. -/
def readable (c : Channel σ ε) (input : List Inbound) : Channel σ ε × List Inbound :=
  if c.closed then (c, input)
  else
    let c := c.record .fill
    match input with
    | [] => (c.await, [])
    | .empty :: input | .data [] :: input => (c.await, input)
    | .data octets :: input => readable { c with buffer := c.buffer ++ octets }.proceed input
    | .ended :: input => (c.shutdown, .ended :: input)
    | .failed _ :: input => (c.shutdown, input)

/-- Takes note of the end of a write.  A failure closes the endpoint. -/
def written (c : Channel σ ε) (failure : Option String) : Channel σ ε :=
  if failure.isSome then c.shutdown else c

/-- Closes the endpoint, unless this was done before. -/
def aborted (c : Channel σ ε) : Channel σ ε :=
  if c.closed then c else c.shutdown

/-- Reacts to a call of the endpoint, where `input` has arrived. -/
def react (c : Channel σ ε) (input : List Inbound) : Callback → Channel σ ε × List Inbound
  | .opened => (c.opened, input)
  | .readable => c.readable input
  | .written failure => (c.written failure, input)
  | .aborted => (c.aborted, input)

end Channel

end WebSocket
