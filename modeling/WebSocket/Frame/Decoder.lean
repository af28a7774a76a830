/-
WebSocket/Frame/Decoder.lean

Reading frames from a stream that arrives in pieces.

Design.  A header is read in stages: the two leading octets, the octets of a
long length, the mask, the payload.  Each stage either finds enough octets and
goes on, or leaves them where they are and keeps what it knows in the decoder,
so `decode` can be called again when more have arrived.  An error is final:
the decoder is left in the stage `failed`.

What a call can do is said once: it passes through stages in order (`Passes`) up
to one where it waits, fails or gives a frame (`Comes`, `comes_decode`).  What
every call keeps follows from that.

`drain` reads frame after frame until more octets are needed or an error is
met.  With less than `demand` octets there is no need to call a decoder, as the
call would not change anything (`decode_of_lt_demand`).

Where a decoder waits for a payload, the buffer is first given room for all of it.
`decode` and `drain` take that for granted.  `call` and `drainWithin` do not: they
are what happens in a buffer that can hold so many octets and no more, and the
program stops where a payload does not fit.  A decoder whose limit fits never gets
there, and then both come to the same.
-/
import WebSocket.Frame.Encoder

namespace WebSocket

/-- How far a decoder has come with the next frame. -/
inductive Decoder.Stage where
  /-- Before the two leading octets. -/
  | start
  /-- The octets of the length are next; `code` says how many. -/
  | length (header : Header) (code : Nat)
  /-- The mask is next. -/
  | mask (header : Header) (length : Nat)
  /-- The payload is next. -/
  | payload (header : Header) (length : Nat)
  /-- The stream had an error. -/
  | failed
  deriving DecidableEq, Repr

/-- A reader of frames. -/
structure Decoder where
  /-- The reserved bits that extensions have in use. -/
  inUse : ReservedBits := {}
  /-- The longest payload that is accepted. -/
  limit : UInt64 := 256 * 1024 * 1024
  stage : Decoder.Stage := .start
  deriving DecidableEq, Repr

namespace Decoder

/-- What one call of a decoder comes to: the decoder behind it, the octets that
are left, and a frame, a demand for more octets (`none`), or an error. -/
structure Decoded where
  decoder : Decoder
  rest : Bytes
  result : Except FrameError (Option Frame)

/-- An error is final. -/
def fail (d : Decoder) (rest : Bytes) (e : FrameError) : Decoded :=
  ⟨{ d with stage := .failed }, rest, .error e⟩

/-- Stops in a stage until more octets are there. -/
def wait (d : Decoder) (stage : Stage) (rest : Bytes) : Decoded :=
  ⟨{ d with stage }, rest, .ok none⟩

/-- Takes the payload. -/
def readPayload (d : Decoder) (header : Header) (length : Nat) (input : Bytes) : Decoded :=
  if Bytes.atLeast input length then
    let octets := input.take length
    let payload := if header.masked then WebSocket.mask header.mask octets else octets
    ⟨{ d with stage := .start }, input.drop length, .ok (some { toHeader := header, payload })⟩
  else d.wait (.payload header length) input

/-- Takes the mask, if there is one. -/
def readMask (d : Decoder) (header : Header) (length : Nat) (input : Bytes) : Decoded :=
  if !header.masked then d.readPayload header length input
  else match input with
    | a :: b :: c :: e :: rest =>
      let mask := UInt32.ofNat (Bytes.toNat [a, b, c, e])
      d.readPayload { header with mask } length rest
    | _ => d.wait (.mask header length) input

/-- The number of octets that hold the length, for its seven-bit code. -/
def lengthWidth (code : Nat) : Nat :=
  if code = 126 then 2 else if code = 127 then 8 else 0

/-- Checks the length: control frames are short, and no frame is beyond the
limit. -/
def checkLength (d : Decoder) (header : Header) (length : Nat) (input : Bytes) : Decoded :=
  if header.opcode.isControl && maxControlLength < length then d.fail input .controlTooLong
  else if d.limit.toNat < length then d.fail input (.payloadTooLarge length d.limit.toNat)
  else d.readMask header length input

/-- Takes the octets of the length, if the code is not the length itself. -/
def readLength (d : Decoder) (header : Header) (code : Nat) (input : Bytes) : Decoded :=
  let width := lengthWidth code
  if Bytes.atLeast input width then
    let length := if width = 0 then code else Bytes.toNat (input.take width)
    d.checkLength header length (input.drop width)
  else d.wait (.length header code) input

/-- The header that two leading octets announce, and the code of its length. -/
def parseLead (inUse : ReservedBits) (first second : UInt8) : Except FrameError (Header × Nat) :=
  match Opcode.ofNat? (first.toNat % 16) with
  | none => .error .unknownOpcode
  | some opcode =>
    let fin := 0x80 ≤ first
    let rsv : ReservedBits :=
      ⟨first &&& 0x40 != 0, first &&& 0x20 != 0, first &&& 0x10 != 0⟩
    if opcode.isReserved then .error .reservedOpcode
    else if opcode.isControl && !fin then .error .fragmentedControl
    else match (rsv.diff inUse).lowest? with
      | some n => .error (.reservedBit n)
      | none => .ok ({ opcode, fin, rsv, masked := 0x80 ≤ second }, second.toNat % 128)

/-- Takes the two leading octets and checks them. -/
def readLead (d : Decoder) (input : Bytes) : Decoded :=
  match input with
  | first :: second :: rest =>
    match parseLead d.inUse first second with
    | .error e => d.fail rest e
    | .ok (header, code) => d.readLength header code rest
  | _ => d.wait .start input

/-- Reads the next frame from the front of `input`. -/
def decode (d : Decoder) (input : Bytes) : Decoded :=
  match d.stage with
  | .start => d.readLead input
  | .length header code => d.readLength header code input
  | .mask header length => d.readMask header length input
  | .payload header length => d.readPayload header length input
  | .failed => d.fail input .illegalState

/-- The number of octets without which a decoder does not go on. -/
def demand (d : Decoder) : Nat :=
  match d.stage with
  | .start => 2
  | .length _ code => lengthWidth code
  | .mask header _ => if header.masked then 4 else 0
  | .payload _ length => length
  | .failed => 0

/-- With fewer octets than it needs, a decoder stays as it is. -/
theorem decode_of_lt_demand {d : Decoder} {input : Bytes} (h : input.length < d.demand) :
    d.decode input = ⟨d, input, .ok none⟩ := by
  obtain ⟨inUse, limit, stage⟩ := d
  cases stage with
  | start =>
    match input, h with
    | [], _ => rfl
    | [_], _ => rfl
    | _ :: _ :: _, h => simp only [demand, List.length_cons] at h; omega
  | length header code =>
    have hw : ¬lengthWidth code ≤ input.length := Nat.not_le.2 h
    simp [decode, readLength, wait, hw]
  | mask header length =>
    by_cases hm : header.masked
    · simp only [demand, hm, if_true] at h
      match input, h with
      | [], _ => simp [decode, readMask, wait, hm]
      | [_], _ => simp [decode, readMask, wait, hm]
      | [_, _], _ => simp [decode, readMask, wait, hm]
      | [_, _, _], _ => simp [decode, readMask, wait, hm]
      | _ :: _ :: _ :: _ :: _, h => simp only [List.length_cons] at h; omega
    · simp [demand, hm] at h
  | payload header length =>
    have hl : ¬length ≤ input.length := Nat.not_le.2 h
    simp [decode, readPayload, wait, hl]
  | failed => cases h

/-! ### The stages of a call -/

/-- A call goes on from a stage, and the octets that are left there, to the next stage. -/
inductive Passes (d : Decoder) : Stage → Bytes → Stage → Bytes → Prop
  | lead {first second : UInt8} {rest : Bytes} {header : Header} {code : Nat}
      (h : parseLead d.inUse first second = .ok (header, code)) :
      Passes d .start (first :: second :: rest) (.length header code) rest
  | length {header : Header} {code n : Nat} {input : Bytes}
      (hwidth : lengthWidth code ≤ input.length)
      (hn : n = if lengthWidth code = 0 then code else Bytes.toNat (input.take (lengthWidth code)))
      (hcontrol : header.opcode.isControl → n ≤ maxControlLength) (hlimit : n ≤ d.limit.toNat) :
      Passes d (.length header code) input (.mask header n) (input.drop (lengthWidth code))
  | unmasked {header : Header} {n : Nat} {input : Bytes} (h : ¬header.masked) :
      Passes d (.mask header n) input (.payload header n) input
  | masked {header : Header} {n : Nat} {a b c e : UInt8} {rest : Bytes} (h : header.masked) :
      Passes d (.mask header n) (a :: b :: c :: e :: rest)
        (.payload { header with mask := UInt32.ofNat (Bytes.toNat [a, b, c, e]) } n) rest

/-- What a call comes to from a stage on: it waits there, fails there or gives a frame, or it goes
on to the next stage. -/
inductive Comes (d : Decoder) : Stage → Bytes → Decoded → Prop
  | waits (stage : Stage) (input : Bytes) : Comes d stage input (d.wait stage input)
  | fails {stage : Stage} {input rest : Bytes} (e : FrameError) (hrest : rest <:+ input)
      (hstart : stage = .start → rest.length < input.length) : Comes d stage input (d.fail rest e)
  | gives {header : Header} {n : Nat} {input payload : Bytes} (hn : n ≤ input.length)
      (hpayload : payload
        = if header.masked then WebSocket.mask header.mask (input.take n) else input.take n) :
      Comes d (.payload header n) input
        ⟨{ d with stage := .start }, input.drop n, .ok (some { toHeader := header, payload })⟩
  | passes {stage stage' : Stage} {input input' : Bytes} {r : Decoded}
      (h : Passes d stage input stage' input') (hr : Comes d stage' input' r) :
      Comes d stage input r

theorem comes_readPayload (d : Decoder) (header : Header) (n : Nat) (input : Bytes) :
    d.Comes (.payload header n) input (d.readPayload header n input) := by
  unfold readPayload
  split
  · next h => exact .gives (Bytes.atLeast_iff.1 h) rfl
  · exact .waits ..

theorem comes_readMask (d : Decoder) (header : Header) (n : Nat) (input : Bytes) :
    d.Comes (.mask header n) input (d.readMask header n input) := by
  unfold readMask
  split
  · next h => exact .passes (.unmasked (by simpa using h)) (d.comes_readPayload header n input)
  · next h =>
    split
    · exact .passes (.masked (by simpa using h)) (d.comes_readPayload _ n _)
    · exact .waits ..

theorem comes_readLength (d : Decoder) (header : Header) (code : Nat) (input : Bytes) :
    d.Comes (.length header code) input (d.readLength header code input) := by
  unfold readLength
  dsimp only
  split
  · next hwidth =>
    generalize hn : (if lengthWidth code = 0 then code
      else Bytes.toNat (input.take (lengthWidth code))) = n
    unfold checkLength
    split
    · exact .fails _ (List.drop_suffix _ input) nofun
    · next hcontrol =>
      split
      · exact .fails _ (List.drop_suffix _ input) nofun
      · next hlimit =>
        have hshort : header.opcode.isControl → n ≤ maxControlLength := by
          intro h
          simpa [h] using hcontrol
        have hpasses : d.Passes (.length header code) input (.mask header n)
            (input.drop (lengthWidth code)) :=
          .length (Bytes.atLeast_iff.1 hwidth) hn.symm hshort (Nat.not_lt.1 hlimit)
        exact .passes hpasses (d.comes_readMask header n _)
  · exact .waits ..

/-- A call goes through the stages in order, from the one that the decoder is in. -/
theorem comes_decode (d : Decoder) (input : Bytes) : d.Comes d.stage input (d.decode input) := by
  rcases hd : d.stage with - | ⟨header, code⟩ | ⟨header, n⟩ | ⟨header, n⟩ | - <;>
    simp only [decode, hd]
  · -- The lead is taken in any case, also where it is an error.
    unfold readLead
    split
    · next first second rest =>
      split
      · have hlt : rest.length < (first :: second :: rest).length :=
          Nat.lt_of_lt_of_le (Nat.lt_succ_self _) (Nat.le_succ _)
        exact .fails _ (List.suffix_append [first, second] rest) fun _ => hlt
      · next h => exact .passes (.lead h) (d.comes_readLength _ _ rest)
    · exact .waits ..
  · exact d.comes_readLength header code input
  · exact d.comes_readMask header n input
  · exact d.comes_readPayload header n input
  · exact .fails _ (List.suffix_refl input) nofun

section

variable {d : Decoder} {stage stage' : Stage} {input input' : Bytes} {r : Decoded}

theorem Passes.suffix (h : d.Passes stage input stage' input') : input' <:+ input := by
  cases h with
  | lead => exact List.suffix_append [_, _] _
  | length => exact List.drop_suffix _ input
  | unmasked => exact List.suffix_refl input
  | masked => exact List.suffix_append [_, _, _, _] _

/-- A call takes octets from the front only. -/
theorem Comes.suffix (h : d.Comes stage input r) : r.rest <:+ input := by
  induction h with
  | waits stage input => exact List.suffix_refl input
  | fails e hrest => exact hrest
  | gives => exact List.drop_suffix _ _
  | passes h _ ih => exact ih.trans h.suffix

/-- A call that starts a frame and does not wait takes octets. -/
theorem Comes.length_rest_lt (h : d.Comes .start input r) (hr : r.result ≠ .ok none) :
    r.rest.length < input.length := by
  cases h with
  | waits => exact absurd rfl hr
  | fails e _ hstart => exact hstart rfl
  | passes hlead hr =>
    cases hlead
    have hle := hr.suffix.length_le
    simp only [List.length_cons]
    omega

/-- A decoder is between frames when it has given one. -/
theorem Comes.start (h : d.Comes stage input r) {f : Frame} (hf : r.result = .ok (some f)) :
    r.decoder.stage = .start := by
  induction h with
  | waits => cases hf
  | fails => cases hf
  | gives => rfl
  | passes _ _ ih => exact ih hf

/-- A decoder that has met an error has failed. -/
theorem Comes.failed (h : d.Comes stage input r) {e : FrameError} (he : r.result = .error e) :
    r.decoder.stage = .failed := by
  induction h with
  | waits => cases he
  | fails => rfl
  | gives => cases he
  | passes _ _ ih => exact ih he

end

theorem start_decode {d : Decoder} {input : Bytes} {f : Frame}
    (h : (d.decode input).result = .ok (some f)) : (d.decode input).decoder.stage = .start :=
  (d.comes_decode input).start h

theorem failed_decode {d : Decoder} {input : Bytes} {e : FrameError}
    (h : (d.decode input).result = .error e) : (d.decode input).decoder.stage = .failed :=
  (d.comes_decode input).failed h

theorem rest_decode (d : Decoder) (input : Bytes) : (d.decode input).rest <:+ input :=
  (d.comes_decode input).suffix

/-! ### Reading all frames there are -/

/-- The work that a decoder may still have with an input.  Each frame takes two
octets at least, but what is missing of one that was begun may be empty. -/
def work (d : Decoder) (input : Bytes) : Nat :=
  2 * input.length + if d.stage = .start then 0 else 1

/-- Each frame lessens the work. -/
theorem work_decode_lt {d : Decoder} {input : Bytes} {f : Frame}
    (h : (d.decode input).result = .ok (some f)) :
    (d.decode input).decoder.work (d.decode input).rest < d.work input := by
  have hle := (d.rest_decode input).length_le
  unfold work
  rw [if_pos (start_decode h)]
  split
  · next hd =>
    have hcomes := hd ▸ d.comes_decode input
    have hlt := hcomes.length_rest_lt (by rw [h]; nofun)
    omega
  · omega

/-- What a decoder gets out of an input: the frames, and the error that ended
the stream, if any. -/
structure Drained where
  decoder : Decoder
  rest : Bytes
  frames : List Frame
  error : Option FrameError
  deriving DecidableEq, Repr

/-- Decodes until more octets are needed or an error is met. -/
def drain (d : Decoder) (input : Bytes) : Drained :=
  match _h : (d.decode input).result with
  | .ok (some f) =>
    let r := drain (d.decode input).decoder (d.decode input).rest
    { r with frames := f :: r.frames }
  | .ok none => ⟨(d.decode input).decoder, (d.decode input).rest, [], none⟩
  | .error e => ⟨(d.decode input).decoder, (d.decode input).rest, [], some e⟩
termination_by d.work input
decreasing_by exact work_decode_lt _h

/-! ### Room in the buffer -/

/-- The most octets that any buffer can hold, as sizes are signed numbers of 64
bits. -/
def maxBuffer : Nat := 0x7fffffffffffffff

/-- The octets that the buffer must have room for: all of the payload that the
decoder waits for. -/
def wanted (d : Decoder) : Nat :=
  match d.stage with
  | .payload _ length => length
  | _ => 0

/-- Reads the next frame from the front of a buffer that can hold `capacity`
octets.  The program stops if it cannot make room for a payload (`none`). -/
def call (capacity : Nat) (d : Decoder) (input : Bytes) : Option Decoded :=
  let r := d.decode input
  if r.decoder.wanted ≤ capacity then some r else none

theorem eq_decode_of_call {capacity : Nat} {d : Decoder} {input : Bytes} {r : Decoded}
    (h : d.call capacity input = some r) : r = d.decode input := by
  unfold call at h
  dsimp only at h
  split at h
  · exact (Option.some.inj h).symm
  · cases h

/-- Decodes until more octets are needed, an error is met or the program stops. -/
def drainWithin (capacity : Nat) (d : Decoder) (input : Bytes) : Option Drained :=
  match _h : d.call capacity input with
  | none => none
  | some ⟨decoder, rest, .ok (some f)⟩ =>
    (drainWithin capacity decoder rest).map fun r => { r with frames := f :: r.frames }
  | some ⟨decoder, rest, .ok none⟩ => some ⟨decoder, rest, [], none⟩
  | some ⟨decoder, rest, .error e⟩ => some ⟨decoder, rest, [], some e⟩
termination_by d.work input
decreasing_by
  have hdecode := eq_decode_of_call _h
  have hlt := work_decode_lt (show (d.decode input).result = .ok (some f) by rw [← hdecode])
  rwa [← hdecode] at hlt

end Decoder

end WebSocket
