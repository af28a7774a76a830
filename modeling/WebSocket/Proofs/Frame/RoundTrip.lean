/-
WebSocket/Proofs/Frame/RoundTrip.lean

What was written is read back.

Design.  The decoder goes through the stages lead, length, mask and payload, and
there is one lemma for each of them: given what the encoder writes for this stage,
and any octets behind it, the decoder goes on to the next stage with the field that
was written (`parseLead_lead`, `readLength_lengthField`, `readMask_masked`,
`readPayload_append`).  The frame comes back as `Frame.received`: a frame that is not
masked has no mask on the wire, so none is read.

Not all that can be written is accepted.  `Decoder.fault?` says what a decoder has
against a frame, in the order in which it finds out; `decode_wire` and
`decode_wire_fault` are the two halves of the round trip for one frame, and
`drain_wires` carries them to any number of frames, one behind the other.
-/
import Mathlib.Tactic.SplitIfs
import WebSocket.Frame.Decoder
import WebSocket.Proofs.Frame.ReservedBits

namespace WebSocket

/-- The frame as its reader has it: without a mask, if it is not masked. -/
def Frame.received (f : Frame) : Frame :=
  { f with mask := if f.masked then f.mask else 0 }

/-- What is on the wire behind the length. -/
def Frame.body (f : Frame) : Bytes :=
  if f.masked then Bytes.ofNat 4 f.mask.toNat ++ WebSocket.mask f.mask f.payload else f.payload

theorem Frame.wire_eq (f : Frame) :
    f.wire = firstByte f.toHeader :: secondByte f.masked (lengthField f.payload.length).1
      :: ((lengthField f.payload.length).2 ++ f.body) :=
  rfl

/-- What a decoder has against a frame.  An opcode without a meaning comes first,
then a control frame that is split, then one that is long, then a payload beyond the
limit. -/
def Decoder.fault? (d : Decoder) (f : Frame) : Option FrameError :=
  if f.opcode = .reserved then some .reservedOpcode
  else if f.opcode.isControl ∧ ¬f.fin then some .fragmentedControl
  else if f.opcode.isControl ∧ maxControlLength < f.payload.length then some .controlTooLong
  else if d.limit.toNat < f.payload.length then
    some (.payloadTooLarge f.payload.length d.limit.toNat)
  else none

/-! ### The two leading octets -/

/-- Nothing but the four bits and the opcode is in the first octet, so that it can be
gone through case by case. -/
theorem Frame.fields_firstByte (h : Header) :
    Opcode.ofNat? ((firstByte h).toNat % 16) = some h.opcode
      ∧ (0x80 ≤ firstByte h ↔ h.fin)
      ∧ (⟨firstByte h &&& 0x40 != 0, firstByte h &&& 0x20 != 0, firstByte h &&& 0x10 != 0⟩ :
          ReservedBits) = h.rsv := by
  rw [show firstByte h = firstByte { h with masked := false, mask := 0 } from rfl]
  obtain ⟨opcode, fin, ⟨r1, r2, r3⟩, masked, mask⟩ := h
  dsimp only
  cases opcode <;> revert fin r1 r2 r3 <;> decide

theorem Frame.toNat_secondByte {masked : Bool} {code : Nat} (h : code < 128) :
    (secondByte masked code).toNat = (if masked then 0x80 else 0) + code := by
  rw [secondByte, UInt8.toNat_ofNat']
  cases masked <;> simp <;> omega

theorem Frame.le_secondByte {masked : Bool} {code : Nat} (h : code < 128) :
    0x80 ≤ secondByte masked code ↔ masked := by
  rw [UInt8.le_iff_toNat_le, toNat_secondByte h]
  cases masked <;> simp; omega

theorem Frame.secondByte_mod {masked : Bool} {code : Nat} (h : code < 128) :
    (secondByte masked code).toNat % 128 = code := by
  rw [toNat_secondByte h]
  cases masked <;> simp <;> omega

theorem lengthField_fst_lt (n : Nat) : (lengthField n).1 < 128 := by
  unfold lengthField
  split
  · dsimp only
    omega
  · split <;> exact by simp

namespace Decoder

/-- The header as it stands before the mask is read. -/
def announced (f : Frame) : Header :=
  { opcode := f.opcode, fin := f.fin, rsv := f.rsv, masked := f.masked }

theorem parseLead_lead {inUse : ReservedBits} {f : Frame} {code : Nat}
    (hb : f.rsv ⊆ inUse) (hc : code < 128) :
    parseLead inUse (Frame.firstByte f.toHeader) (Frame.secondByte f.masked code)
      = if f.opcode = .reserved then .error .reservedOpcode
        else if f.opcode.isControl ∧ ¬f.fin then .error .fragmentedControl
        else .ok (announced f, code) := by
  obtain ⟨hop, hle, hrsv⟩ := Frame.fields_firstByte f.toHeader
  have hfin : decide (0x80 ≤ Frame.firstByte f.toHeader) = f.fin := by simp [hle]
  have hm : decide (0x80 ≤ Frame.secondByte f.masked code) = f.masked := by
    simp [Frame.le_secondByte hc]
  have hcode : (Frame.secondByte f.masked code).toNat % 128 = code := Frame.secondByte_mod hc
  have hlow := ReservedBits.lowest?_diff_eq_none_iff.2 hb
  simp only [parseLead, hop, hfin, hrsv, hm, hcode, hlow, announced]
  by_cases h1 : f.opcode = .reserved
  · simp [h1, Opcode.isReserved]
  · have h1' : f.opcode.isReserved = false := by
      cases h : f.opcode <;> simp_all [Opcode.isReserved]
    by_cases h2 : f.opcode.isControl ∧ ¬f.fin <;> simp [h1, h1', h2]

/-! ### The length, the mask and the payload -/

/-- Any length below `2 ^ 64` is read back, in whichever of its three forms. -/
theorem readLength_lengthField (d : Decoder) (header : Header) {n : Nat} (rest : Bytes)
    (hn : n < Bytes.capacity 8) :
    d.readLength header (lengthField n).1 ((lengthField n).2 ++ rest)
      = d.checkLength header n rest := by
  by_cases h1 : n < 126
  · have h126 : n ≠ 126 := by omega
    have h127 : n ≠ 127 := by omega
    simp [lengthField, h1, readLength, lengthWidth, h126, h127]
  by_cases h2 : n < Bytes.capacity 2
  · have hlen : (Bytes.ofNat 2 n).length = 2 := Bytes.length_ofNat 2 n
    simp [lengthField, h1, h2, readLength, lengthWidth, hlen, Bytes.toNat_ofNat h2]
  · have hlen : (Bytes.ofNat 8 n).length = 8 := Bytes.length_ofNat 8 n
    simp [lengthField, h1, h2, readLength, lengthWidth, hlen, Bytes.toNat_ofNat hn]

theorem readMask_masked (d : Decoder) {header : Header} (n : Nat) (key : UInt32) (rest : Bytes)
    (hm : header.masked) :
    d.readMask header n (Bytes.ofNat 4 key.toNat ++ rest)
      = d.readPayload { header with mask := key } n rest := by
  have hkey : UInt32.ofNat (Bytes.toNat (Bytes.ofNat 4 key.toNat)) = key := by
    rw [Bytes.toNat_ofNat (Nat.lt_of_lt_of_le key.toNat_lt (by decide)), UInt32.ofNat_toNat]
  obtain ⟨a, b, c, e, hoct⟩ : ∃ a b c e, Bytes.ofNat 4 key.toNat = [a, b, c, e] :=
    ⟨_, _, _, _, rfl⟩
  rw [hoct] at hkey ⊢
  simp [readMask, hm, hkey]

theorem readMask_unmasked (d : Decoder) {header : Header} (n : Nat) (input : Bytes)
    (hm : header.masked = false) : d.readMask header n input = d.readPayload header n input := by
  simp [readMask, hm]

theorem readPayload_append (d : Decoder) (header : Header) (octets rest : Bytes) :
    d.readPayload header octets.length (octets ++ rest)
      = ⟨{ d with stage := .start }, rest,
          .ok (some { toHeader := header,
                      payload := if header.masked then WebSocket.mask header.mask octets
                        else octets })⟩ := by
  simp [readPayload]

/-- Behind its length, a frame is read back as it was. -/
theorem readMask_body (d : Decoder) (f : Frame) (rest : Bytes) :
    d.readMask (announced f) f.payload.length (f.body ++ rest)
      = ⟨{ d with stage := .start }, rest, .ok (some f.received)⟩ := by
  unfold Frame.body
  by_cases hm : f.masked
  · have hm' : (announced f).masked := hm
    have hn : f.payload.length = (WebSocket.mask f.mask f.payload).length := by simp
    rw [if_pos hm, List.append_assoc, readMask_masked _ _ _ _ hm', hn, readPayload_append]
    simp [announced, Frame.received, hm]
  · have hm' : (announced f).masked = false := by simpa [announced] using hm
    rw [if_neg hm, readMask_unmasked _ _ _ hm', readPayload_append]
    simp [announced, Frame.received, hm]

/-! ### One frame -/

theorem decode_lead_error {d : Decoder} {first second : UInt8} {e : FrameError}
    (hd : d.stage = .start) (h : parseLead d.inUse first second = .error e) (rest : Bytes) :
    d.decode (first :: second :: rest) = d.fail rest e := by
  simp [decode, hd, readLead, h]

theorem decode_lead_ok {d : Decoder} {first second : UInt8} {header : Header} {code : Nat}
    (hd : d.stage = .start) (h : parseLead d.inUse first second = .ok (header, code))
    (rest : Bytes) :
    d.decode (first :: second :: rest) = d.readLength header code rest := by
  simp [decode, hd, readLead, h]

/-- A frame with a proper lead is read up to its length. -/
theorem decode_wire_eq_checkLength {d : Decoder} {f : Frame} (hd : d.stage = .start)
    (hb : f.rsv ⊆ d.inUse) (h1 : f.opcode ≠ .reserved) (h2 : ¬(f.opcode.isControl ∧ ¬f.fin))
    (hn : f.payload.length < Bytes.capacity 8) (rest : Bytes) :
    d.decode (f.wire ++ rest)
      = d.checkLength (announced f) f.payload.length (f.body ++ rest) := by
  have hlead := parseLead_lead hb (lengthField_fst_lt f.payload.length)
  rw [if_neg h1, if_neg h2] at hlead
  rw [Frame.wire_eq, List.cons_append, List.cons_append, decode_lead_ok hd hlead,
    List.append_assoc, readLength_lengthField _ _ _ hn]

/-- A frame that the decoder has nothing against is read back, and no octet behind it
is taken. -/
theorem decode_wire {d : Decoder} {f : Frame} (hd : d.stage = .start) (hb : f.rsv ⊆ d.inUse)
    (hf : d.fault? f = none) (rest : Bytes) :
    d.decode (f.wire ++ rest) = ⟨d, rest, .ok (some f.received)⟩ := by
  unfold fault? at hf
  split_ifs at hf with h1 h2 h3 h4
  -- The limit is a number of 64 bits, so the length has a written form.
  have hn : f.payload.length < Bytes.capacity 8 :=
    Nat.lt_of_le_of_lt (Nat.not_lt.1 h4) d.limit.toNat_lt
  have hd' : { d with stage := .start } = d := by rw [← hd]
  have h3' : ¬((announced f).opcode.isControl && maxControlLength < f.payload.length) := by
    simpa [announced] using h3
  rw [decode_wire_eq_checkLength hd hb h1 h2 hn, checkLength, if_neg h3', if_neg h4,
    readMask_body, hd']

/-- Any other frame is refused for the first thing that is wrong with it. -/
theorem decode_wire_fault {d : Decoder} {f : Frame} {e : FrameError} (hd : d.stage = .start)
    (hb : f.rsv ⊆ d.inUse) (hn : f.payload.length < Bytes.capacity 8)
    (hf : d.fault? f = some e) (rest : Bytes) :
    ∃ left, d.decode (f.wire ++ rest) = d.fail left e := by
  have hlead := parseLead_lead hb (lengthField_fst_lt f.payload.length)
  unfold fault? at hf
  -- The first two faults show in the lead already, the other two behind the length.
  split_ifs at hf with h1 h2 h3 h4 <;> cases hf
  · rw [if_pos h1] at hlead
    exact ⟨_, decode_lead_error hd hlead _⟩
  · rw [if_neg h1, if_pos h2] at hlead
    exact ⟨_, decode_lead_error hd hlead _⟩
  · have h3' : (announced f).opcode.isControl && maxControlLength < f.payload.length := by
      simpa [announced] using h3
    rw [decode_wire_eq_checkLength hd hb h1 h2 hn, checkLength, if_pos h3']
    exact ⟨_, rfl⟩
  · have h3' : ¬((announced f).opcode.isControl && maxControlLength < f.payload.length) := by
      simpa [announced] using h3
    rw [decode_wire_eq_checkLength hd hb h1 h2 hn, checkLength, if_neg h3', if_pos h4]
    exact ⟨_, rfl⟩

/-! ### Frames behind each other -/

theorem drain_of_frame {d : Decoder} {input : Bytes} {f : Frame}
    (h : (d.decode input).result = .ok (some f)) :
    d.drain input
      = { (d.decode input).decoder.drain (d.decode input).rest with
          frames := f :: ((d.decode input).decoder.drain (d.decode input).rest).frames } := by
  rw [drain]
  split
  · next g hg =>
    rw [h] at hg
    cases hg
    rfl
  · next hg => rw [h] at hg; cases hg
  · next hg => rw [h] at hg; cases hg

theorem drain_of_error {d : Decoder} {input : Bytes} {e : FrameError}
    (h : (d.decode input).result = .error e) :
    d.drain input = ⟨(d.decode input).decoder, (d.decode input).rest, [], some e⟩ := by
  rw [drain]
  split
  · next hg => rw [h] at hg; cases hg
  · next hg => rw [h] at hg; cases hg
  · next hg =>
    rw [h] at hg
    cases hg
    rfl

theorem drain_wires {d : Decoder} (hd : d.stage = .start) {fs : List Frame}
    (hfs : ∀ f ∈ fs, f.rsv ⊆ d.inUse ∧ d.fault? f = none) (rest : Bytes) :
    d.drain (fs.flatMap Frame.wire ++ rest)
      = { d.drain rest with frames := fs.map Frame.received ++ (d.drain rest).frames } := by
  induction fs with
  | nil => rfl
  | cons f fs ih =>
    obtain ⟨hb, hf⟩ := hfs f List.mem_cons_self
    -- The decoder is back where it was, with the other frames before it.
    have hdec := decode_wire hd hb hf (fs.flatMap Frame.wire ++ rest)
    have ih := ih fun g hg => hfs g (List.mem_cons_of_mem f hg)
    rw [List.flatMap_cons, List.append_assoc, drain_of_frame (f := f.received) (by rw [hdec]),
      hdec, ih]
    rfl

theorem drain_wires_fault {d : Decoder} (hd : d.stage = .start) {good : List Frame}
    {bad : Frame} {e : FrameError} (hgood : ∀ f ∈ good, f.rsv ⊆ d.inUse ∧ d.fault? f = none)
    (hb : bad.rsv ⊆ d.inUse) (hn : bad.payload.length < Bytes.capacity 8)
    (hbad : d.fault? bad = some e) (rest : Bytes) :
    ∃ left, d.drain (good.flatMap Frame.wire ++ (bad.wire ++ rest))
      = ⟨{ d with stage := .failed }, left, good.map Frame.received, some e⟩ := by
  obtain ⟨left, hleft⟩ := decode_wire_fault hd hb hn hbad rest
  refine ⟨left, ?_⟩
  rw [drain_wires hd hgood, drain_of_error (e := e) (by rw [hleft]; rfl), hleft]
  simp [fail]

end Decoder

/-! ### The round trip -/

theorem Frame.append_of_subset {inUse : ReservedBits} {f : Frame} (hb : f.rsv ⊆ inUse)
    (buffer : Bytes) : f.append inUse buffer = (buffer ++ f.wire, .ok ()) := by
  simp [append, ReservedBits.lowest?_diff_eq_none_iff.2 hb]

/-- **What was written is read back.**  An encoder and a decoder have the same reserved
bits in use, and the decoder is between frames.

* A frame without other bits is written behind what the buffer holds.  If the decoder has
  nothing against it, the frame is read back, the octets behind it are left, and the
  decoder is between frames again; otherwise it gives the error of `fault?`, where a
  length has 64 bits at most.
* The same holds of any number of frames, one behind the other, up to the first that is
  refused.
* A frame with a bit that is not in use is refused for the lowest such bit, and the buffer
  stays as it is. -/
theorem Decoder.decode_written {inUse : ReservedBits} {d : Decoder} (hd : d.stage = .start)
    (hu : d.inUse = inUse) (buffer rest : Bytes) :
    (∀ f : Frame, f.rsv ⊆ inUse →
      f.append inUse buffer = (buffer ++ f.wire, .ok ())
      ∧ (d.fault? f = none → d.decode (f.wire ++ rest) = ⟨d, rest, .ok (some f.received)⟩)
      ∧ ∀ e, d.fault? f = some e → f.payload.length < Bytes.capacity 8 →
          (d.decode (f.wire ++ rest)).result = .error e)
    ∧ (∀ good : List Frame, (∀ f ∈ good, f.rsv ⊆ inUse ∧ d.fault? f = none) →
      good.foldl (fun octets f => (f.append inUse octets).1) buffer
          = buffer ++ good.flatMap Frame.wire
      ∧ d.drain (good.flatMap Frame.wire ++ rest)
          = { d.drain rest with frames := good.map Frame.received ++ (d.drain rest).frames }
      ∧ ∀ bad e, bad.rsv ⊆ inUse → d.fault? bad = some e →
          bad.payload.length < Bytes.capacity 8 →
          ∃ left, d.drain (good.flatMap Frame.wire ++ (bad.wire ++ rest))
            = ⟨{ d with stage := .failed }, left, good.map Frame.received, some e⟩)
    ∧ ∀ f : Frame, ¬f.rsv ⊆ inUse →
      ∃ n, n ∈ f.rsv ∧ n ∉ inUse ∧ (∀ m, m < n → m ∈ f.rsv → m ∈ inUse)
        ∧ f.append inUse buffer = (buffer, .error (.reservedBit n)) := by
  subst hu
  refine ⟨fun f hb => ⟨Frame.append_of_subset hb buffer, fun hf => decode_wire hd hb hf rest,
    fun e hf hn => ?_⟩, fun good hgood => ⟨?_, drain_wires hd hgood rest,
    fun bad e hb hbad hn => drain_wires_fault hd hgood hb hn hbad rest⟩,
    fun f hb => ?_⟩
  · obtain ⟨left, hleft⟩ := decode_wire_fault hd hb hn hf rest
    rw [hleft]
    rfl
  · induction good generalizing buffer with
    | nil => simp
    | cons f fs ih =>
      rw [List.foldl_cons, Frame.append_of_subset (hgood f List.mem_cons_self).1,
        ih _ fun g hg => hgood g (List.mem_cons_of_mem f hg), List.flatMap_cons,
        List.append_assoc]
  · rcases hlowest : (f.rsv.diff d.inUse).lowest? with - | n
    · exact absurd (ReservedBits.lowest?_diff_eq_none_iff.1 hlowest) hb
    · obtain ⟨hn, hu, hlow⟩ := ReservedBits.lowest?_diff_eq_some_iff.1 hlowest
      exact ⟨n, hn, hu, hlow, by simp [Frame.append, hlowest]⟩

/-- A masked frame that uses the first of the reserved bits, with another frame behind
it. -/
theorem Decoder.decode_written_of_masked :
    let d : Decoder := { inUse := .single 1 }
    let f : Frame :=
      { opcode := .text, rsv := .single 1, masked := true, mask := 0x01020304,
        payload := [72, 105] }
    d.stage = .start ∧ f.rsv ⊆ d.inUse ∧ d.fault? f = none
      ∧ d.decode (f.wire ++ [0x89, 0]) = ⟨d, [0x89, 0], .ok (some f)⟩ := by
  refine ⟨rfl, by decide, by decide, ?_⟩
  exact ((decode_written rfl rfl [] [0x89, 0]).1 _ (by decide)).2.1 (by decide)

end WebSocket
