/-
WebSocket/Proofs/Channel/Process.lean

The exits of reading, one by one.

`process` reads frame after frame.  It stops where the endpoint was closed, where the
octets do not suffice for a frame, and where they cannot be decoded; otherwise it deals
with a frame and goes on.  Each of these is a lemma here, and `process_induction` is the
induction that goes with them.  From these it follows that the octets may come in parts:
what `process` makes of `front ++ back` is what it makes of `back` behind what `front` has
left in the buffer (`process_append`), unless the endpoint was closed meanwhile, which
nothing that comes later changes (`process_append_of_closed`).

The exits of `readable` are lemmas in the same way.
-/
import WebSocket.Proofs.Frame.Resumption
import WebSocket.Channel.Connection

namespace WebSocket.Channel

variable {σ ε : Type} [Extension ε] [Session σ]

/-! ### Reading frames -/

theorem process_of_closed {c : Channel σ ε} (hc : c.closed) (input : Bytes) :
    c.process input = { c with buffer := input.toArray } := by
  rw [process, if_pos hc]

/-- What becomes of a channel when its decoder has come to this result. -/
def afterDecoding (c : Channel σ ε) (d : Decoder.Decoded) : Channel σ ε :=
  let read := { c with decoder := d.decoder }
  match d.result with
  | .ok none => { read with buffer := d.rest.toArray }
  | .error _ => { read with buffer := d.rest.toArray }.shutdown
  | .ok (some f) => (read.take f).process d.rest

theorem process_of_open {c : Channel σ ε} (hc : c.closed = false) (input : Bytes) :
    c.process input = c.afterDecoding (c.decoder.decode input) := by
  rw [process, if_neg (by simp [hc]), afterDecoding]
  dsimp only
  split <;> next h => rw [h]

theorem process_of_wait {c : Channel σ ε} {input : Bytes} (hc : c.closed = false)
    (h : (c.decoder.decode input).result = .ok none) :
    c.process input
      = { c with
          decoder := (c.decoder.decode input).decoder
          buffer := (c.decoder.decode input).rest.toArray } := by
  rw [process_of_open hc, afterDecoding, h]

theorem process_of_error {c : Channel σ ε} {input : Bytes} {e : FrameError}
    (hc : c.closed = false) (h : (c.decoder.decode input).result = .error e) :
    c.process input
      = { c with
          decoder := (c.decoder.decode input).decoder
          buffer := (c.decoder.decode input).rest.toArray : Channel σ ε }.shutdown := by
  rw [process_of_open hc, afterDecoding, h]

theorem process_of_frame {c : Channel σ ε} {input : Bytes} {f : Frame} (hc : c.closed = false)
    (h : (c.decoder.decode input).result = .ok (some f)) :
    c.process input
      = ({ c with decoder := (c.decoder.decode input).decoder : Channel σ ε }.take f).process
          (c.decoder.decode input).rest := by
  rw [process_of_open hc, afterDecoding, h]

/-- What holds at the three exits, and carries over from what is behind a frame, holds of
all reading. -/
theorem process_induction {motive : Channel σ ε → Bytes → Prop}
    (closed : ∀ c input, c.closed = true → motive c input)
    (wait : ∀ c input, c.closed = false → (c.decoder.decode input).result = .ok none →
      motive c input)
    (error : ∀ c input e, c.closed = false → (c.decoder.decode input).result = .error e →
      motive c input)
    (frame : ∀ c input f, c.closed = false → (c.decoder.decode input).result = .ok (some f) →
      motive ({ c with decoder := (c.decoder.decode input).decoder : Channel σ ε }.take f)
        (c.decoder.decode input).rest → motive c input)
    (c : Channel σ ε) (input : Bytes) : motive c input := by
  induction c, input using process.induct with
  | case1 c input hc => exact closed c input hc
  | case2 c input hc d hd => exact wait c input (by simpa using hc) hd
  | case3 c input hc d e hd => exact error c input e (by simpa using hc) hd
  | case4 c input hc d read f hd ih => exact frame c input f (by simpa using hc) hd ih

/-! ### Decoder and buffer -/

omit [Session σ] in
theorem respond_with (c : Channel σ ε) (f : Frame) (decoder : Decoder) (buffer : Array UInt8) :
    respond { c with decoder, buffer } f = { c.respond f with decoder, buffer } := by
  unfold respond
  split
  · dsimp only
    split <;> rfl
  · rfl
  · rfl

theorem deliver_with (c : Channel σ ε) (f : Frame) (decoder : Decoder) (buffer : Array UInt8) :
    deliver { c with decoder, buffer } f = { c.deliver f with decoder, buffer } := by
  let r := Session.receive c.session f
  have hrest := respond_with
    { c with session := r.1, link := r.2.sends.foldl reply (c.link.record (.deliver f)) } f
    decoder buffer
  unfold deliver
  dsimp only
  split
  · rfl
  · exact hrest

/-- What is done with a frame depends on neither the decoder nor what is left to decode. -/
theorem take_with (c : Channel σ ε) (f : Frame) (decoder : Decoder) (buffer : Array UInt8) :
    take { c with decoder, buffer } f = { c.take f with decoder, buffer } := by
  unfold take
  dsimp only
  split
  · next g _ => exact deliver_with { c with link := (c.link.incoming f).1 } g decoder buffer
  · rfl

theorem take_with_buffer (c : Channel σ ε) (f : Frame) (buffer : Array UInt8) :
    take { c with buffer } f = { c.take f with buffer } := by
  calc
    take { c with buffer } f
    _ = { c.take f with decoder := c.decoder, buffer } := take_with c f c.decoder buffer
    _ = { c.take f with buffer } := by rw [← decoder_take c f]

/-- What is in the buffer already makes no difference to `process`. -/
theorem process_with_buffer (c : Channel σ ε) (input : Bytes) (buffer : Array UInt8) :
    process { c with buffer } input = c.process input := by
  induction c, input using process_induction with
  | closed c input hc => rw [process_of_closed hc, process_of_closed (c := { c with buffer }) hc]
  | wait c input hc h => rw [process_of_wait hc h, process_of_wait (c := { c with buffer }) hc h]
  | error c input e hc h =>
    rw [process_of_error hc h, process_of_error (c := { c with buffer }) hc h]
  | frame c input f hc h ih =>
    rw [process_of_frame hc h, process_of_frame (c := { c with buffer }) hc h, ← ih]
    exact congrArg (process · _)
      (take_with_buffer { c with decoder := (c.decoder.decode input).decoder } f buffer)

/-! ### Octets in parts -/

/-- Channels that decode the same make the same of it. -/
theorem process_eq_of_decode_eq {c : Channel σ ε} {d : Decoder} {input input' : Bytes}
    (h : d.decode input' = c.decoder.decode input) (hc : c.closed = false) :
    process { c with decoder := d } input' = c.process input := by
  have hc' : ({ c with decoder := d } : Channel σ ε).closed = false := hc
  have h' : ({ c with decoder := d } : Channel σ ε).decoder.decode input'
      = c.decoder.decode input := h
  rcases hr : (c.decoder.decode input).result with e | - | f
  · rw [process_of_error hc hr, process_of_error hc' (e := e) (by rw [h', hr]), h']
  · rw [process_of_wait hc hr, process_of_wait hc' (by rw [h', hr]), h']
  · rw [process_of_frame hc hr, process_of_frame hc' (f := f) (by rw [h', hr]), h']

theorem process_append {c : Channel σ ε} {front : Bytes}
    (h : (c.process front).closed = false) (back : Bytes) :
    c.process (front ++ back)
      = (c.process front).process ((c.process front).buffer.toList ++ back) := by
  induction c, front using process_induction with
  | closed c front hc =>
    rw [process_of_closed hc] at h
    exact absurd hc (Bool.eq_false_iff.1 h)
  | wait c front hc hd =>
    -- The decoder goes on with what it has kept as if both parts had come at once.
    have hrest := process_eq_of_decode_eq (Decoder.decode_append_of_wait hd back).symm hc
    rw [process_of_wait hc hd, ← hrest]
    exact (process_with_buffer ..).symm
  | error c front e hc hd =>
    rw [process_of_error hc hd] at h
    cases h
  | frame c front f hc hd ih =>
    -- The frame ends within `front`, and `back` is behind what is left of it.
    have hall := Decoder.decode_append_of_frame hd back
    rw [process_of_frame hc hd] at h ⊢
    rw [process_of_frame (f := f) hc (by rw [hall, hd]), hall]
    exact ih h

/-- Once the endpoint is closed, all that could still change is what is left to decode. -/
theorem process_append_of_closed {c : Channel σ ε} {front : Bytes}
    (h : (c.process front).closed) (back : Bytes) :
    ∃ buffer, c.process (front ++ back) = { c.process front with buffer } := by
  induction c, front using process_induction with
  | closed c front hc =>
    rw [process_of_closed hc, process_of_closed hc]
    exact ⟨_, rfl⟩
  | wait c front hc hd =>
    rw [process_of_wait hc hd] at h
    exact absurd hc (by simpa using h)
  | error c front e hc hd =>
    have hall := Decoder.decode_append_of_error hd back
    rw [process_of_error hc hd, process_of_error (e := e) hc (by rw [hall, hd]), hall]
    exact ⟨_, rfl⟩
  | frame c front f hc hd ih =>
    have hall := Decoder.decode_append_of_frame hd back
    rw [process_of_frame hc hd] at h ⊢
    rw [process_of_frame (f := f) hc (by rw [hall, hd]), hall]
    exact ih h

/-! ### Reading what has arrived -/

theorem readable_of_closed {c : Channel σ ε} (hc : c.closed) (input : List Inbound) :
    c.readable input = (c, input) := by
  rw [readable.eq_def, if_pos hc]

theorem readable_induction {motive : Channel σ ε → List Inbound → Prop}
    (closed : ∀ c input, c.closed = true → motive c input)
    (nil : ∀ c, c.closed = false → motive c [])
    (empty : ∀ c input, c.closed = false → motive c (.empty :: input))
    (data_nil : ∀ c input, c.closed = false → motive c (.data [] :: input))
    (data : ∀ c octets input, c.closed = false → octets ≠ [] →
      motive { c.record .fill with buffer := c.buffer ++ octets }.proceed input →
      motive c (.data octets :: input))
    (ended : ∀ c input, c.closed = false → motive c (.ended :: input))
    (failed : ∀ c message input, c.closed = false → motive c (.failed message :: input))
    (c : Channel σ ε) (input : List Inbound) : motive c input := by
  induction c, input using readable.induct with
  | case1 input c hc => exact closed c input hc
  | case2 c hc => exact nil c (Bool.eq_false_iff.2 hc)
  | case3 c hc input => exact empty c input (Bool.eq_false_iff.2 hc)
  | case4 c hc input => exact data_nil c input (Bool.eq_false_iff.2 hc)
  | case5 c hc c' octets input hne ih =>
    exact data c octets input (Bool.eq_false_iff.2 hc) hne ih
  | case6 c hc input => exact ended c input (Bool.eq_false_iff.2 hc)
  | case7 c hc message input => exact failed c message input (Bool.eq_false_iff.2 hc)

/-- What becomes of a channel that has asked for octets, if this is what has arrived. -/
def afterFill (c : Channel σ ε) : List Inbound → Channel σ ε × List Inbound
  | [] => (c.await, [])
  | .empty :: input | .data [] :: input => (c.await, input)
  | .data octets :: input => readable { c with buffer := c.buffer ++ octets }.proceed input
  | .ended :: input => (c.shutdown, .ended :: input)
  | .failed _ :: input => (c.shutdown, input)

theorem readable_of_open {c : Channel σ ε} (hc : c.closed = false) (input : List Inbound) :
    c.readable input = (c.record .fill).afterFill input := by
  rw [readable.eq_def, if_neg (by simp [hc])]
  rfl

variable {c : Channel σ ε} (hc : c.closed = false)
include hc

theorem readable_nil : c.readable [] = ((c.record .fill).await, []) :=
  readable_of_open hc []

theorem readable_empty (input : List Inbound) :
    c.readable (.empty :: input) = ((c.record .fill).await, input) :=
  readable_of_open hc _

theorem readable_data_nil (input : List Inbound) :
    c.readable (.data [] :: input) = ((c.record .fill).await, input) :=
  readable_of_open hc _

theorem readable_data {octets : Bytes} (h : octets ≠ []) (input : List Inbound) :
    c.readable (.data octets :: input)
      = readable { c.record .fill with buffer := c.buffer ++ octets }.proceed input := by
  obtain ⟨b, bs, rfl⟩ := List.exists_cons_of_ne_nil h
  exact readable_of_open hc _

theorem readable_ended (input : List Inbound) :
    c.readable (.ended :: input) = ((c.record .fill).shutdown, .ended :: input) :=
  readable_of_open hc _

theorem readable_failed (message : String) (input : List Inbound) :
    c.readable (.failed message :: input) = ((c.record .fill).shutdown, input) :=
  readable_of_open hc _

end WebSocket.Channel
