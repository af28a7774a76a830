/-
WebSocket/Proofs/Channel/ClosePayload.lean

What the close frame of an application carries, and what a peer makes of it.

Of a reason there is room for 123 octets.  `Close.fitting` takes whole characters as long as they
fit, which is the longest front of the reason that does (`isPrefix_fitting`), so where it ends is
the last boundary of a character up to the room (`boundaryUpTo?_encode`).  Less than one character
is lost of the room, which is at most three octets.

On a link without extensions nothing but a mask is added to the frame.  So a decoder that is between
frames reads it, unless its own limit for payloads is even smaller.
-/
import WebSocket.Proofs.Channel.BitsInUse
import WebSocket.Proofs.Channel.PeerReads
import WebSocket.Proofs.Text.Boundary

namespace WebSocket

open Text

namespace Close

variable {room : Nat} {s front : List Char}

/-! ### The front of a reason that fits -/

theorem fitting_isPrefix (room : Nat) (s : List Char) : fitting room s <+: s := by
  induction s generalizing room with
  | nil => exact List.prefix_rfl
  | cons c s ih =>
    rw [fitting]
    split
    · exact List.cons_prefix_cons.2 ⟨rfl, ih _⟩
    · exact List.nil_prefix

/-- Every front that fits is within it. -/
theorem isPrefix_fitting (h : front <+: s) (hroom : (Utf8.encode front).length ≤ room) :
    front <+: fitting room s := by
  induction s generalizing room front with
  | nil =>
    obtain rfl := List.prefix_nil.1 h
    exact List.nil_prefix
  | cons c s ih =>
    cases front with
    | nil => exact List.nil_prefix
    | cons d front =>
      obtain ⟨rfl, hfront⟩ := List.cons_prefix_cons.1 h
      rw [Utf8.length_encode_cons] at hroom
      rw [fitting, if_pos (by omega)]
      exact List.cons_prefix_cons.2 ⟨rfl, ih hfront (by omega)⟩

theorem fitting_eq_self (hroom : (Utf8.encode s).length ≤ room) : fitting room s = s :=
  (fitting_isPrefix room s).eq_of_length_le (isPrefix_fitting List.prefix_rfl hroom).length_le

/-- Where a character does not fit any more, no more than three octets are left. -/
theorem le_length_encode_fitting (hroom : room < (Utf8.encode s).length) :
    room ≤ (Utf8.encode (fitting room s)).length + 3 := by
  induction s generalizing room with
  | nil => cases hroom
  | cons c s ih =>
    rw [Utf8.length_encode_cons] at hroom
    rw [fitting]
    split
    · next hc =>
      have hrest : room - c.utf8Size ≤ (Utf8.encode (fitting (room - c.utf8Size) s)).length + 3 :=
        ih (by omega)
      rw [Utf8.length_encode_cons]
      omega
    · next hc =>
      have hsize := c.utf8Size_le_four
      omega

/-- The front that fits ends at the last boundary up to the room. -/
theorem isLastBoundary_fitting (room : Nat) (s : List Char) :
    Utf8.IsLastBoundary (Utf8.encode s) room (Utf8.encode (fitting room s)).length where
  boundary := Utf8.isBoundary_encode_iff.2 ⟨_, fitting_isPrefix room s, rfl⟩
  le_room := length_encode_fitting room s
  last m hm hroom := by
    obtain ⟨front, hfront, rfl⟩ := Utf8.isBoundary_encode_iff.1 hm
    exact Utf8.length_encode_le_of_isPrefix (isPrefix_fitting hfront hroom)

/-- Looking for a boundary backwards from the end of the room, or from that of the text if it is
shorter, one finds the end of the front that fits. -/
theorem boundaryUpTo?_encode (room : Nat) (s : List Char) :
    Utf8.boundaryUpTo? (Utf8.encode s) (min (Utf8.encode s).length room)
      = some (Utf8.encode (fitting room s)).length := by
  have hlast := isLastBoundary_fitting room s
  have hwhole := Utf8.length_encode_le_of_isPrefix (fitting_isPrefix room s)
  refine Utf8.boundaryUpTo?_eq_some hlast.boundary (Nat.le_min.2 ⟨hwhole, hlast.le_room⟩) ?_
  -- A boundary further on would end a longer front, and the last one up to the room is this one.
  intro k hk hle
  rw [Bool.eq_false_iff]
  intro hboundary
  have hback := hlast.last k hboundary (Nat.le_trans hle (Nat.min_le_right _ _))
  omega

/-- The payload is the code in network order, and the octets of the reason that fit. -/
theorem payload_eq (code : UInt16) (s : List Char) :
    payload code s = UInt8.ofNat (code.toNat / 256) :: UInt8.ofNat (code.toNat % 256)
      :: (Utf8.encode s).take (Utf8.encode (fitting maxReasonLength s)).length := by
  have hlow : UInt8.ofNat code.toNat = UInt8.ofNat (code.toNat % 256) := by
    rw [← UInt8.toNat_inj, UInt8.toNat_ofNat', UInt8.toNat_ofNat', Nat.mod_mod]
  have hcode : Bytes.ofNat codeLength code.toNat
      = [UInt8.ofNat (code.toNat / 256), UInt8.ofNat (code.toNat % 256)] := by
    rw [← hlow]
    simp [codeLength, Bytes.ofNat, Bytes.capacity]
  rw [payload, hcode, Utf8.take_encode_of_isPrefix (fitting_isPrefix _ _)]
  rfl

/-- A decoder has nothing against the frame but that it may be beyond its own limit. -/
theorem fault?_payload (d : Decoder) (code : UInt16) (s : List Char) :
    d.fault? (.single .close (payload code s))
      = if d.limit.toNat < (payload code s).length
        then some (.payloadTooLarge (payload code s).length d.limit.toNat) else none := by
  have hshort := length_payload_le code s
  by_cases hlimit : d.limit.toNat < (payload code s).length
  · have hlong : ¬maxControlLength < (payload code s).length := Nat.not_lt.2 hshort
    simp [Decoder.fault?, Frame.single, hlong, hlimit]
  · rw [if_neg hlimit]
    exact Decoder.fault?_single (by decide) (fun _ => hshort) (Nat.not_lt.1 hlimit)

end Close

/-! ### One frame that is read -/

namespace Decoder

variable {d : Decoder} {f : Frame}

theorem drain_wire (hd : d.stage = .start) (hbits : f.rsv ⊆ d.inUse) (hf : f.received = f)
    (hnone : d.fault? f = none) : d.drain f.wire = ⟨d, [], [f], none⟩ := by
  have hread := decode_wire hd hbits hnone []
  rw [List.append_nil] at hread
  rw [drain_of_frame (f := f) (by rw [hread, hf]), hread, drain_nil hd]

theorem drain_wire_fault (hd : d.stage = .start) (hbits : f.rsv ⊆ d.inUse)
    (hlength : f.payload.length < Bytes.capacity 8) {e : FrameError} (he : d.fault? f = some e) :
    (d.drain f.wire).frames = [] ∧ (d.drain f.wire).error = some e := by
  obtain ⟨left, hread⟩ := decode_wire_fault hd hbits hlength he []
  rw [List.append_nil] at hread
  rw [drain_of_error (e := e) (by rw [hread]; rfl)]
  exact ⟨rfl, rfl⟩

end Decoder

/-! ### Close frames on a link without extensions -/

namespace Link

variable {ε : Type} [Extension ε] {before : List Event} {l : Link ε}

/-- A frame without reserved bits is accepted by an open link. -/
theorem Plain.accept_of_isOpen (h : Plain before l) (hopen : l.isOpen) {f : Frame}
    (hf : f.rsv = {}) :
    (l.accept f).2 = .ok ()
      ∧ ∃ octets, (l.accept f).1.events = l.events ++ [.accept f octets] := by
  have hclosed : (l.closed || l.closeSent) = false := by
    simp only [isOpen, Bool.and_eq_true, Bool.not_eq_true'] at hopen
    rw [hopen.1.2, hopen.2]
    rfl
  obtain ⟨octets, hencode⟩ :
      ∃ octets, (f.withMask (l.keys l.drawn)).encode l.inUse = .ok octets := by
    rcases he : (f.withMask (l.keys l.drawn)).encode l.inUse with e | octets
    · obtain ⟨n, hn, -⟩ := Frame.encode_eq_error_iff.1 he
      rw [show (f.withMask (l.keys l.drawn)).rsv = {} from hf] at hn
      cases hn
    · exact ⟨octets, rfl⟩
  -- There is no extension that could refuse it either.
  have hprepare : (l.prepareAlone f).2 = .ok octets := by
    rw [prepareAlone_of_some hclosed h.chain]
    exact congrArg (Except.mapError ChannelError.codec) hencode
  rcases accept_cases h.egress f with ⟨e, he, -⟩ | ⟨octets', -, haccept⟩
  · rw [hprepare] at he
    cases he
  · rw [haccept]
    exact ⟨rfl, octets', List.reverse_cons⟩

theorem Plain.submit_close (h : Plain before l) (hopen : l.isOpen) (code : UInt16)
    (reason : String) :
    (l.submit (.close code reason)).2 = .ok ()
      ∧ ∃ octets E, (l.submit (.close code reason)).1.events
        = l.events ++ .accept (.single .close (Close.payload code reason.toList)) octets :: E := by
  obtain ⟨hok, octets, hevents⟩ := h.accept_of_isOpen hopen
    (f := .single .close (Close.payload code reason.toList)) rfl
  have hsend : l.submit (.close code reason)
      = l.send (.single .close (Close.payload code reason.toList)) := rfl
  obtain ⟨E, hE, -⟩ := (accept_sending_send l
    (.single .close (Close.payload code reason.toList))).events
  rw [hsend]
  refine ⟨by rw [send_snd, hok], octets, E, ?_⟩
  rw [hE, hevents, List.append_assoc]
  rfl

omit [Extension ε] in
/-- What was accepted is read by a decoder between frames, or refused for what it has against
it. -/
theorem Plain.drain_accepted (h : Plain before l) {E : List Event} (hE : l.events = before ++ E)
    {f : Frame} {octets : Bytes} (hmem : .accept f octets ∈ E)
    (hlength : f.payload.length < Bytes.capacity 8) :
    ∃ key, ∀ d : Decoder, d.stage = .start →
      (d.fault? f = none → d.drain octets = ⟨d, [], [f.withMask key], none⟩)
        ∧ ∀ e, d.fault? f = some e →
          (d.drain octets).frames = [] ∧ (d.drain octets).error = some e := by
  obtain ⟨E', hE', hplain⟩ := h.events
  obtain rfl : E' = E := List.append_cancel_left (hE'.symm.trans hE)
  obtain ⟨hrsv, key, rfl⟩ := hplain _ hmem
  refine ⟨key, fun d hd => ?_⟩
  have hbits : (f.withMask key).rsv ⊆ d.inUse := by
    rw [show (f.withMask key).rsv = {} from hrsv]
    exact ReservedBits.empty_subset _
  exact ⟨Decoder.drain_wire hd hbits (Frame.received_withMask f key),
    fun e => Decoder.drain_wire_fault hd hbits hlength⟩

/-- **Close frames carry as much of a reason as there is room for, and are read.**  The payload is
the code in network order and behind it the octets of the reason up to the last boundary of a
character among the first 123, which are the octets of a front of the reason.  The boundary is
found by looking backwards from there, or from the end of a shorter reason, which is kept whole;
of a longer one no more than three octets are lost against 123.

When it is sent on an open link without extensions, the frame is accepted, and whatever is accepted
is written.  A decoder that is between frames reads it from that, with a mask, or refuses it as
beyond a limit for payloads of its own. -/
theorem close_payload_and_reading (code : UInt16) (reason : String) :
    let octets := Utf8.encode reason.toList
    let payload := Close.payload code reason.toList
    let frame : Frame := .single .close payload
    (∃ n front, Utf8.boundaryUpTo? octets (min octets.length 123) = some n
        ∧ payload = UInt8.ofNat (code.toNat / 256) :: UInt8.ofNat (code.toNat % 256)
          :: octets.take n
        ∧ Utf8.IsLastBoundary octets 123 n
        ∧ Utf8.decode (octets.take n) = .ok front ∧ front <+: reason.toList
        ∧ (octets.length ≤ 123 → n = octets.length)
        ∧ (123 < octets.length → 123 ≤ n + 3))
      ∧ payload.length ≤ 125
      ∧ ∀ (before : List Event) (l : Link ε), Upgraded before l → l.chain = some ⟨[]⟩ →
        (l.isOpen → (l.submit (.close code reason)).2 = .ok ()
          ∧ ∃ sent E, (l.submit (.close code reason)).1.events
            = l.events ++ .accept frame sent :: E)
        ∧ ∀ E, l.events = before ++ E → ∀ sent, .accept frame sent ∈ E →
          sent ∈ E.filterMap Event.written?
          ∧ ∃ key, ∀ d : Decoder, d.stage = .start →
            (payload.length ≤ d.limit.toNat →
              d.drain sent = ⟨d, [], [frame.withMask key], none⟩)
            ∧ (d.limit.toNat < payload.length → (d.drain sent).frames = []
              ∧ (d.drain sent).error = some (.payloadTooLarge payload.length d.limit.toNat)) := by
  intro octets payload frame
  have hlength : payload.length ≤ 125 := Close.length_payload_le code reason.toList
  refine ⟨?_, hlength, fun before l hl hchain => ⟨?_, ?_⟩⟩
  · have hfront := Close.fitting_isPrefix 123 reason.toList
    refine ⟨_, _, Close.boundaryUpTo?_encode 123 _, Close.payload_eq _ _,
      Close.isLastBoundary_fitting 123 _,
      Utf8.decode_eq_ok_iff.2 (Utf8.take_encode_of_isPrefix hfront), hfront, ?_,
      Close.le_length_encode_fitting⟩
    intro hshort
    rw [Close.fitting_eq_self hshort]
  · intro hopen
    exact (hl.plain hchain).submit_close hopen code reason
  · intro E hE sent hmem
    constructor
    · -- What is accepted on an upgraded connection does not stay in the queue.
      obtain ⟨W, hW, hwritten⟩ := hl.writesAccepted.2
      obtain rfl : W = E := List.append_cancel_left (hW.symm.trans hE)
      rw [hwritten]
      exact List.mem_filterMap.2 ⟨_, hmem, rfl⟩
    · have hcapacity : payload.length < Bytes.capacity 8 :=
        Nat.lt_of_le_of_lt hlength (by decide)
      obtain ⟨key, hread⟩ := (hl.plain hchain).drain_accepted hE hmem hcapacity
      refine ⟨key, fun d hd => ?_⟩
      obtain ⟨hframe, hfault⟩ := hread d hd
      rw [Close.fault?_payload] at hframe hfault
      exact ⟨fun hlimit => hframe (if_neg (Nat.not_lt.2 hlimit)),
        fun hlimit => hfault _ (if_pos hlimit)⟩

/-- Of a character of two octets behind 122 others there is room for the first octet only, so the
character is left out. -/
theorem close_payload_and_reading_of_long_reason :
    let l : Link Extension.Identity :=
      (Channel.connect { keys := fun _ => 0 } () ([] : List Extension.Identity)).link
    let reason := String.ofList (List.replicate 122 'a' ++ ['ü'])
    let frame : Frame := .single .close (3 :: 232 :: List.replicate 122 97)
    let behind := l.submit (.close 1000 reason)
    Upgraded [] l ∧ l.chain = some ⟨[]⟩ ∧ l.isOpen
      ∧ Close.payload 1000 reason.toList = frame.payload ∧ behind.2 = .ok ()
      ∧ Upgraded [] behind.1 ∧ behind.1.chain = some ⟨[]⟩
      ∧ ∃ sent ∈ behind.1.events.filterMap Event.written?, ∃ key,
        (({} : Decoder).drain sent).frames = [frame.withMask key] := by
  intro l reason frame behind
  have hl : Upgraded [] l := .connect [] (fun _ => 0) () []
  have hbehind : Upgraded [] behind.1 := hl.reaches (.submit .refl _)
  have hpayload : Close.payload 1000 reason.toList = frame.payload := by decide +kernel
  obtain ⟨-, -, hsends⟩ :=
    close_payload_and_reading (ε := Extension.Identity) 1000 reason
  obtain ⟨hok, sent, E, hE⟩ := (hsends [] l hl rfl).1 rfl
  rw [hpayload] at hE
  have hmem : .accept frame sent ∈ behind.1.events := by
    rw [show behind.1.events = _ from hE]
    exact List.mem_append_right _ List.mem_cons_self
  obtain ⟨-, hlater⟩ := hsends [] behind.1 hbehind rfl
  rw [hpayload] at hlater
  obtain ⟨hwritten, key, hread⟩ := hlater behind.1.events rfl sent hmem
  have hshort : frame.payload.length ≤ ({} : Decoder).limit.toNat := by decide +kernel
  exact ⟨hl, rfl, rfl, hpayload, hok, hbehind, rfl, sent, hwritten, key,
    congrArg Decoder.Drained.frames ((hread {} rfl).1 hshort)⟩

/-- **A close frame that a decoder refuses.**  Its limit for payloads is below the two octets of the
code. -/
theorem close_refused_by_small_limit :
    let l : Link Extension.Identity :=
      (Channel.connect { keys := fun _ => 0 } () ([] : List Extension.Identity)).link
    let d : Decoder := { limit := 1 }
    let behind := l.submit (.close 1000 "")
    let octets := (behind.1.events.filterMap Event.written?).flatten
    Upgraded [] l ∧ l.chain = some ⟨[]⟩ ∧ behind.2 = .ok () ∧ d.stage = .start
      ∧ octets = [0x88, 0x82, 0, 0, 0, 0, 3, 232]
      ∧ (d.drain octets).frames = []
      ∧ (d.drain octets).error = some (.payloadTooLarge 2 1) := by
  intro l d behind octets
  have hoctets : octets = [0x88, 0x82, 0, 0, 0, 0, 3, 232] := by decide +kernel
  refine ⟨.connect [] (fun _ => 0) () [], rfl, rfl, rfl, hoctets, ?_, ?_⟩
  · rw [hoctets]
    decide +kernel
  · rw [hoctets]
    decide +kernel

end Link

end WebSocket
