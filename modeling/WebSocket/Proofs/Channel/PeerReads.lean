/-
WebSocket/Proofs/Channel/PeerReads.lean

What the peer reads of a channel without extensions.

Design.  Without extensions nothing stands between a frame and the encoder, so `accept` can
be said in full (`Plain.accept`): an open link accepts a frame exactly if it has no reserved
bit, and what waits to be written is that frame with a mask.  `Plain` says so of all frames
that were accepted so far.  It is an invariant of sending and of all that a channel does,
and as what was accepted is what is written (`Upgraded.writesAccepted`), it describes the
octets that the peer gets.

A decoder reads frames behind each other up to the first that it has something against
(`Decoder.drain_flatMap_wire`).  The encoder does not ask for that: an application that sends
frames of its own can have a reserved opcode accepted, a control frame in parts, or a long
one (`accepted_and_not_decoded`).  All other sends make frames that any decoder takes
(`Outgoing.frame_of_fault`).
-/
import Mathlib.Data.List.Forall2
import WebSocket.Proofs.Channel.SendOrder
import WebSocket.Proofs.Channel.Sending
import WebSocket.Proofs.Frame.RoundTrip
import WebSocket.Proofs.Text.Utf8

namespace WebSocket

/-- The frame that is accepted, as it was handed in. -/
def Event.acceptedFrame? : Event → Option Frame
  | accept f _ => some f
  | _ => none

/-! ### Frames with masks -/

/-- A frame as it is sent with this mask. -/
def Frame.withMask (f : Frame) (key : UInt32) : Frame :=
  { f with masked := true, mask := key }

@[simp] theorem Frame.received_withMask (f : Frame) (key : UInt32) :
    (f.withMask key).received = f.withMask key := by
  simp [received, withMask]

@[simp] theorem Decoder.fault?_withMask (d : Decoder) (f : Frame) (key : UInt32) :
    d.fault? (f.withMask key) = d.fault? f :=
  rfl

theorem Decoder.drain_nil {d : Decoder} (hd : d.stage = .start) :
    d.drain [] = ⟨d, [], [], none⟩ := by
  have hwait : d.decode [] = ⟨d, [], .ok none⟩ :=
    decode_of_lt_demand (by simp [demand, hd])
  rw [drain]
  split
  · next h => rw [hwait] at h; cases h
  · rw [hwait]
  · next h => rw [hwait] at h; cases h

/-- A decoder reads frames up to the first that it has something against. -/
theorem Decoder.drain_flatMap_wire {d : Decoder} (hd : d.stage = .start) {fs : List Frame}
    (hfs : ∀ f ∈ fs, f.rsv ⊆ d.inUse ∧ f.received = f ∧ f.payload.length ≤ d.limit.toNat) :
    (d.drain (fs.flatMap Frame.wire)).frames = fs.takeWhile (d.fault? · = none)
      ∧ (d.drain (fs.flatMap Frame.wire)).error = fs.findSome? d.fault?
      ∧ ((∀ f ∈ fs, d.fault? f = none) →
          d.drain (fs.flatMap Frame.wire) = ⟨d, [], fs, none⟩) := by
  induction fs with
  | nil =>
    rw [List.flatMap_nil, drain_nil hd]
    exact ⟨rfl, rfl, fun _ => rfl⟩
  | cons f fs ih =>
    obtain ⟨hb, hr, hlen⟩ := hfs f List.mem_cons_self
    obtain ⟨hframes, herror, hall⟩ := ih fun g hg => hfs g (List.mem_cons_of_mem f hg)
    rw [List.flatMap_cons]
    rcases hf : d.fault? f with - | e
    · have hdec := decode_wire hd hb hf (fs.flatMap Frame.wire)
      rw [drain_of_frame (f := f) (by rw [hdec, hr]), hdec]
      refine ⟨by simp [hf, hframes], by simp [hf, herror], fun hnone => ?_⟩
      rw [hall fun g hg => hnone g (List.mem_cons_of_mem f hg)]
    · have hn : f.payload.length < Bytes.capacity 8 :=
        Nat.lt_of_le_of_lt hlen d.limit.toNat_lt
      obtain ⟨left, hdec⟩ := decode_wire_fault hd hb hn hf (fs.flatMap Frame.wire)
      rw [drain_of_error (e := e) (by rw [hdec]; rfl), hdec]
      refine ⟨by simp [hf], by simp [hf], fun hnone => ?_⟩
      rw [hnone f List.mem_cons_self] at hf
      cases hf

/-! ### What the sends of an application make -/

theorem Close.length_encode_fitting (room : Nat) (cs : List Char) :
    (Text.Utf8.encode (fitting room cs)).length ≤ room := by
  induction cs generalizing room with
  | nil => exact Nat.zero_le room
  | cons c cs ih =>
    unfold fitting
    split
    · next hc =>
      have hrest := ih (room - c.utf8Size)
      rw [Text.Utf8.length_encode_cons]
      omega
    · exact Nat.zero_le room

theorem Close.length_payload_le (code : UInt16) (reason : List Char) :
    (payload code reason).length ≤ maxControlLength := by
  have hreason := length_encode_fitting maxReasonLength reason
  rw [payload, List.length_append, Bytes.length_ofNat]
  exact Nat.add_le_add_left hreason codeLength

/-- A whole message of a kind with a meaning has no fault, if it is short enough. -/
theorem Decoder.fault?_single {d : Decoder} {opcode : Opcode} {payload : Bytes}
    (hop : opcode ≠ .reserved) (hcontrol : opcode.isControl → payload.length ≤ maxControlLength)
    (hlen : payload.length ≤ d.limit.toNat) : d.fault? (.single opcode payload) = none := by
  have hlong : ¬(opcode.isControl ∧ maxControlLength < payload.length) :=
    fun ⟨hc, hlt⟩ => absurd (hcontrol hc) (Nat.not_le.2 hlt)
  have hlimit : ¬d.limit.toNat < payload.length := Nat.not_lt.2 hlen
  simp [fault?, Frame.single, hop, hlong, hlimit]

/-- Only among the frames that an application makes itself can there be one that a decoder
has something against, its length apart. -/
theorem Outgoing.frame_of_fault {d : Decoder} {o : Outgoing} {f : Frame} (h : o.toFrame = .ok f)
    (hlen : f.payload.length ≤ d.limit.toNat) (hf : d.fault? f ≠ none) : o = .frame f := by
  cases o with
  | text message =>
    cases h
    exact (hf (Decoder.fault?_single nofun nofun hlen)).elim
  | binary octets =>
    cases h
    exact (hf (Decoder.fault?_single nofun nofun hlen)).elim
  | ping payload =>
    simp only [toFrame] at h
    split at h
    · cases h
    · next hle =>
      cases h
      exact (hf (Decoder.fault?_single nofun (fun _ => Nat.not_lt.1 hle) hlen)).elim
  | frame g => exact congrArg frame (Except.ok.inj h)
  | close code reason =>
    cases h
    have hle := Close.length_payload_le code reason.toList
    exact (hf (Decoder.fault?_single nofun (fun _ => hle) hlen)).elim

/-! ### The number of extensions -/

theorem Pipeline.length_encodeThrough {ε : Type} [Extension ε] (es : List ε) (f : Frame) :
    (encodeThrough es f).1.length = es.length := by
  fun_induction encodeThrough es f with
  | case1 => rfl
  | case2 => rfl
  | case3 e es f e' g h r ih => exact congrArg (· + 1) ih

theorem Pipeline.length_decodeThrough {ε : Type} [Extension ε] (es : List ε) (f : Frame) :
    (decodeThrough es f).1.length = es.length := by
  fun_induction decodeThrough es f with
  | case1 => rfl
  | case2 e es f es' err h ih =>
    rw [h] at ih
    exact congrArg (· + 1) ih
  | case3 e es f es' g h r ih =>
    rw [h] at ih
    exact congrArg (· + 1) ih

namespace Link

variable {ε : Type} [Extension ε]

/-- How many extensions there are, once the channel is there. -/
def extensionCount? (l : Link ε) : Option Nat :=
  l.chain.map (·.extensions.length)

omit [Extension ε] in
theorem extensionCount?_eq_zero_iff {l : Link ε} :
    l.extensionCount? = some 0 ↔ l.chain = some ⟨[]⟩ := by
  rcases h : l.chain with - | ⟨_ | ⟨e, es⟩⟩ <;> simp [extensionCount?, h]

theorem extensionCount?_incoming (l : Link ε) (f : Frame) :
    (l.incoming f).1.extensionCount? = l.extensionCount? := by
  unfold incoming
  rcases hc : l.chain with - | p
  · rfl
  · simp [extensionCount?, hc, Pipeline.incoming, Pipeline.length_decodeThrough]

theorem extensionCount?_prepareAlone (l : Link ε) (f : Frame) :
    (l.prepareAlone f).1.extensionCount? = l.extensionCount? := by
  unfold prepareAlone
  split
  · rfl
  · rcases hc : l.chain with - | p
    · rfl
    · simp [extensionCount?, hc, Pipeline.outgoing, Pipeline.length_encodeThrough]

theorem extensionCount?_accept {l : Link ε} (he : l.egress = []) (f : Frame) :
    (l.accept f).1.extensionCount? = l.extensionCount? := by
  rcases accept_cases he f with ⟨e, -, ha⟩ | ⟨octets, -, ha⟩
  · rw [ha]
    exact extensionCount?_prepareAlone l f
  · rw [ha]
    exact extensionCount?_prepareAlone l f

theorem Sending.extensionCount? {l l' : Link ε} (h : l.Sending l') (he : l.egress = []) :
    l'.extensionCount? = l.extensionCount? := by
  induction h with
  | refl => rfl
  | accept h f ih => exact (extensionCount?_accept (h.egress he) f).trans ih
  | note _ _ ih => exact ih
  | queue _ _ _ _ ih => exact ih

theorem Reaches.extensionCount? {l l' : Link ε} (h : l.Reaches l') (hl : l.Idle) :
    l'.extensionCount? = l.extensionCount? := by
  induction h with
  | refl => rfl
  | @send l' h f ih =>
    exact ((sending_send l' f).extensionCount? (h.writesAccepted hl).1.egress).trans ih
  | @incoming l' _ f ih => exact (extensionCount?_incoming l' f).trans ih
  | close _ ih => exact ih
  | note _ _ ih => exact ih
  | onWrite _ _ ih => exact ih

/-! ### Links without extensions -/

end Link

/-- What is accepted is written as it is, with a mask. -/
def Event.IsPlain : Event → Prop
  | accept f octets => f.rsv = {} ∧ ∃ key, octets = (f.withMask key).wire
  | _ => True

namespace Link

variable {ε : Type} [Extension ε] {before : List Event}

/-- There are no extensions and no reserved bits, and all that was accepted behind `before`
is written as it is, with a mask. -/
structure Plain (before : List Event) (l : Link ε) : Prop where
  egress : l.egress = []
  chain : l.chain = some ⟨[]⟩
  inUse : l.inUse = {}
  events : ∃ E, l.events = before ++ E ∧ ∀ e ∈ E, e.IsPlain

namespace Plain

omit [Extension ε] in
theorem record {l : Link ε} (h : Plain before l) {e : Event} (he : e.IsPlain) :
    Plain before (l.record e) := by
  obtain ⟨E, hE, hall⟩ := h.events
  refine ⟨h.egress, h.chain, h.inUse, E ++ [e], by simp [hE], fun e' he' => ?_⟩
  rcases List.mem_append.1 he' with he' | he'
  · exact hall e' he'
  · rw [List.mem_singleton.1 he']
    exact he

/-- Without extensions a frame meets nothing but the encoder. -/
theorem accept {l : Link ε} (h : Plain before l) (f : Frame) : Plain before (l.accept f).1 := by
  have hchain := extensionCount?_eq_zero_iff.1
    ((extensionCount?_accept h.egress f).trans (extensionCount?_eq_zero_iff.2 h.chain))
  have hf := accepts_accept h.egress f
  generalize l.accept f = r at hf hchain
  cases hf with
  | closed | notConnected => exact h
  | refused => exact ⟨h.egress, hchain, h.inUse, h.events⟩
  | @accepted p p' g octets _ hc hp hg =>
    -- The chain is empty, so the frame that comes out is the one that went in.
    obtain rfl : p = ⟨[]⟩ := Option.some.inj (hc.symm.trans h.chain)
    obtain rfl : f.withMask (l.keys l.drawn) = g := Except.ok.inj (congrArg Prod.snd hp)
    rw [h.inUse] at hg
    have hrsv : f.rsv ⊆ {} := by
      apply ReservedBits.lowest?_diff_eq_none_iff.1
      rcases hlow : (f.rsv.diff {}).lowest? with - | n
      · rfl
      · simp [Frame.encode, Frame.append, Frame.withMask, hlow, Except.map] at hg
    have hnil : f.rsv = {} := by
      obtain ⟨h1, h2, h3⟩ := ReservedBits.subset_iff.1 hrsv
      rcases hr : f.rsv with ⟨r1, r2, r3⟩
      simp_all
    have hplain : (Event.accept f octets).IsPlain := ⟨hnil, _, wire_of_encode hg⟩
    obtain ⟨E, hE, hall⟩ := (record h hplain).events
    exact ⟨h.egress, hchain, h.inUse, E, hE, hall⟩

theorem sending {l l' : Link ε} (h : Plain before l) (hs : l.Sending l') : Plain before l' := by
  induction hs with
  | refl => exact h
  | accept _ f ih => exact ih.accept f
  | @note l' _ e he ih =>
    apply ih.record
    cases e <;> trivial
  | queue _ _ _ _ ih => exact ⟨ih.egress, ih.chain, ih.inUse, ih.events⟩

theorem reaches {l l' : Link ε} (h : Plain before l) (hl : l.Reaches l') : Plain before l' := by
  induction hl with
  | refl => exact h
  | @send l' _ f ih => exact ih.sending (sending_send l' f)
  | @incoming l' _ f ih =>
    have hchain := extensionCount?_eq_zero_iff.1
      ((extensionCount?_incoming l' f).trans (extensionCount?_eq_zero_iff.2 ih.chain))
    obtain ⟨chain, heq, -⟩ := exists_incoming_eq l' f
    rw [heq] at hchain ⊢
    exact ⟨ih.egress, hchain, ih.inUse, ih.events⟩
  | close _ ih => exact ⟨ih.egress, ih.chain, ih.inUse, ih.events⟩
  | @note l' _ e he ih =>
    apply ih.record
    cases e <;> trivial
  | onWrite _ _ ih => exact ⟨ih.egress, ih.chain, ih.inUse, ih.events⟩

end Plain

/-- A link that has no extensions never had any. -/
theorem Upgraded.plain {l : Link ε} (h : Upgraded before l) (hc : l.chain = some ⟨[]⟩) :
    Plain before l := by
  induction h with
  | connect onWrite keys session extensions =>
    obtain rfl : extensions = [] := by simpa [Channel.connect, Pipeline.build] using hc
    exact ⟨rfl, hc, rfl, [], by simp [Link.events, Channel.connect], List.forall_mem_nil _⟩
  | replaceHandler _ ih => exact (ih hc).record trivial
  | @reaches l l' h hl ih =>
    have hcount := (hl.extensionCount? h.writesAccepted.1).symm.trans
      (extensionCount?_eq_zero_iff.2 hc)
    exact (ih (extensionCount?_eq_zero_iff.1 hcount)).reaches hl

/-! ### A sequence of sends -/

/-- Sends one after the other, and what the application is told of each. -/
def submitAll (l : Link ε) : List Outgoing → Link ε × List (Except ChannelError Unit)
  | [] => (l, [])
  | o :: os =>
    let (l, r) := l.submit o
    let (l, rs) := l.submitAll os
    (l, r :: rs)

/-- The frames of the sends that succeeded. -/
def granted : List Outgoing → List (Except ChannelError Unit) → List Frame
  | o :: os, .ok () :: rs => o.toFrame.toOption.toList ++ granted os rs
  | _ :: os, .error _ :: rs => granted os rs
  | _, _ => []

theorem length_acceptedFrame? (E : List Event) :
    (E.filterMap Event.acceptedFrame?).length = (E.filterMap Event.accepted?).length := by
  induction E with
  | nil => rfl
  | cons e E ih => cases e <;> first | exact congrArg (· + 1) ih | exact ih

theorem length_sent (rs : List (Except ChannelError Bytes)) :
    (sent rs).length = (rs.map refusal).count none := by
  induction rs with
  | nil => rfl
  | cons r rs ih => cases r <;> simp [refusal, ih]

/-- What a part of a log has to do with sends from outside and their results: their frames
are accepted in their order, and among them those of the nested sends that succeeded. -/
structure Grants (os : List Outgoing) (rs : List (Except ChannelError Unit)) (E : List Event) :
    Prop where
  sublist : (granted os rs).Sublist (E.filterMap Event.acceptedFrame?)
  length : (E.filterMap Event.acceptedFrame?).length
    = (granted os rs).length + (E.filterMap Event.nested?).count none

/-- A send that succeeds begins with the acceptance of its frame. -/
theorem grants_submit {l : Link ε} (hl : l.Idle) (o : Outgoing) :
    ∃ E, (l.submit o).1.events = l.events ++ E ∧ Grants [o] [(l.submit o).2] E
      ∧ (l.onWrite = [] → (l.submit o).1.onWrite = [] ∧ E.filterMap Event.nested? = []) := by
  obtain ⟨k, E, r, rs, hrs, heq, hw, hacc, hn, hk⟩ := submit_eq hl o
  have hevents : (l.submit o).1.events = l.events ++ E := by simp [heq, events]
  have hr : (l.attempt o).2 = r := (List.cons.inj hrs).1
  have hlength : (E.filterMap Event.acceptedFrame?).length
      = (sent [r]).length + (E.filterMap Event.nested?).count none := by
    rw [length_acceptedFrame?, hacc, sent_cons, List.length_append, length_sent rs, hn]
  refine ⟨E, hevents, ?_, fun hnil => ?_⟩
  · have htold : (l.submit o).2 = told r := by rw [heq]
    rw [htold]
    rcases r with e | octets
    · exact ⟨List.nil_sublist _, hlength⟩
    · rcases hf : o.toFrame with e | f
      · simp [attempt, hf] at hr
      rw [attempt, hf] at hr
      have hsend : l.submit o = l.send f := by simp [submit, hf]
      -- The frame is accepted before anything is written.
      obtain ⟨E', hE', -⟩ := (accept_sending_send l f).events
      rcases accept_cases hl.egress f with ⟨e, he, -⟩ | ⟨octets', -, ha⟩
      · cases hr.symm.trans he
      · have hfront : E = .accept f octets' :: E' := by
          rw [← hsend, hevents, ha] at hE'
          apply List.append_cancel_left
          rw [hE']
          simp [events]
        have hgranted : granted [o] [told (.ok octets)] = [f] := by
          simp [granted, told, hf, Except.map, Except.toOption]
        refine ⟨?_, by rw [hgranted]; exact hlength⟩
        rw [hgranted, hfront]
        exact (List.nil_sublist _).cons_cons f
  · -- Nothing is sent from within the writes.
    have hrs' : rs = [] := by
      simpa [hnil, attempts] using (List.cons.inj hrs).2.symm
    exact ⟨by rw [heq]; simp [hnil], by rw [hn, hrs']; rfl⟩

theorem Grants.append {o : Outgoing} {os : List Outgoing} {r : Except ChannelError Unit}
    {rs : List (Except ChannelError Unit)} {E E' : List Event} (h : Grants [o] [r] E)
    (h' : Grants os rs E') : Grants (o :: os) (r :: rs) (E ++ E') := by
  have hgranted : granted (o :: os) (r :: rs) = granted [o] [r] ++ granted os rs := by
    rcases r with e | ⟨⟩ <;> simp [granted]
  refine ⟨?_, ?_⟩
  · rw [hgranted, List.filterMap_append]
    exact h.sublist.append h'.sublist
  · rw [hgranted, List.filterMap_append, List.filterMap_append, List.length_append,
      List.length_append, List.count_append, h.length, h'.length]
    omega

theorem grants_submitAll {l : Link ε} (hl : l.Idle) (os : List Outgoing) :
    ∃ E, (l.submitAll os).1.events = l.events ++ E ∧ Grants os (l.submitAll os).2 E
      ∧ (l.onWrite = [] → E.filterMap Event.acceptedFrame? = granted os (l.submitAll os).2) := by
  suffices h : ∃ E, (l.submitAll os).1.events = l.events ++ E ∧ Grants os (l.submitAll os).2 E
      ∧ (l.onWrite = [] → E.filterMap Event.nested? = []) by
    obtain ⟨E, hE, hg, hn⟩ := h
    refine ⟨E, hE, hg, fun hnil => (hg.sublist.eq_of_length ?_).symm⟩
    rw [hg.length, hn hnil]
    rfl
  induction os generalizing l with
  | nil => exact ⟨[], by simp [submitAll], ⟨.refl _, rfl⟩, fun _ => rfl⟩
  | cons o os ih =>
    obtain ⟨E, hE, hg, hn⟩ := grants_submit hl o
    obtain ⟨E', hE', hg', hn'⟩ := ih (hl.submit o)
    refine ⟨E ++ E', ?_, hg.append hg', fun hnil => ?_⟩
    · rw [submitAll, hE', hE, List.append_assoc]
    · rw [List.filterMap_append, (hn hnil).2, hn' (hn hnil).1]
      rfl

theorem Reaches.submitAll {l l' : Link ε} (h : l.Reaches l') (os : List Outgoing) :
    l.Reaches (l'.submitAll os).1 := by
  induction os generalizing l' with
  | nil => exact h
  | cons o os ih => exact ih (h.submit o)

/-! ### What the peer reads -/

/-- What was accepted lies on the wire as frames with masks. -/
theorem exists_masked {E : List Event} (h : ∀ e ∈ E, e.IsPlain) :
    ∃ masked : List Frame,
      List.Forall₂ (fun f g => ∃ key, g = f.withMask key) (E.filterMap Event.acceptedFrame?) masked
      ∧ E.filterMap Event.accepted? = masked.map Frame.wire
      ∧ ∀ g ∈ masked, g.rsv = {} ∧ g.received = g := by
  induction E with
  | nil => exact ⟨[], .nil, rfl, List.forall_mem_nil _⟩
  | cons e E ih =>
    obtain ⟨masked, hall, hwire, hg⟩ := ih fun e' he' => h e' (List.mem_cons_of_mem e he')
    rcases hf : e.acceptedFrame? with - | f
    · have ha : e.accepted? = none := by cases e <;> first | rfl | cases hf
      refine ⟨masked, ?_, ?_, hg⟩
      · rwa [List.filterMap_cons_none hf]
      · rwa [List.filterMap_cons_none ha]
    · obtain ⟨octets, rfl⟩ : ∃ octets, e = .accept f octets := by
        cases e <;> cases hf
        exact ⟨_, rfl⟩
      obtain ⟨hrsv, key, rfl⟩ := h _ List.mem_cons_self
      refine ⟨f.withMask key :: masked, .cons ⟨key, rfl⟩ hall, congrArg (_ :: ·) hwire, ?_⟩
      rintro g (- | ⟨-, hmem⟩)
      · exact ⟨hrsv, f.received_withMask key⟩
      · exact hg g hmem

/-- **The peer reads what was accepted, up to the first frame that breaks the protocol.**
A channel without extensions has come as far as `l`, and now `os` is sent, with `nested`
from within the writes.

The frames of the sends that succeeded are accepted in their order, and so are those of the
nested sends that succeeded, and no others.  What is written since the channel was connected
is these frames, each with a mask and otherwise as it was.  A decoder between frames with a
sufficient limit reads all of them up to the first that has a reserved opcode, or is a control
frame in parts or with a long payload; if there is none, it is between frames again and has
no error.  Only a frame that the application has made itself can be one of these. -/
theorem Upgraded.read_by_peer {before : List Event} {l : Link ε} (h : Upgraded before l)
    (hc : l.chain = some ⟨[]⟩) (nested : List (List Outgoing)) (os : List Outgoing)
    {d : Decoder} (hd : d.stage = .start) :
    let behind := submitAll { l with onWrite := nested } os
    ∃ (E₀ E : List Event) (masked : List Frame),
      l.events = before ++ E₀ ∧ behind.1.events = l.events ++ E
      ∧ Grants os behind.2 E
      ∧ (nested = [] → E.filterMap Event.acceptedFrame? = granted os behind.2)
      ∧ List.Forall₂ (fun f g => ∃ key, g = f.withMask key)
          ((E₀ ++ E).filterMap Event.acceptedFrame?) masked
      ∧ (let octets := ((E₀ ++ E).filterMap Event.written?).flatten
        (∀ g ∈ masked, g.payload.length ≤ d.limit.toNat) →
          (d.drain octets).frames = masked.takeWhile (d.fault? · = none)
          ∧ (d.drain octets).error = masked.findSome? d.fault?
          ∧ ((∀ g ∈ masked, d.fault? g = none) → d.drain octets = ⟨d, [], masked, none⟩))
      ∧ ∀ o ∈ os, ∀ f, o.toFrame = .ok f → f.payload.length ≤ d.limit.toNat →
          d.fault? f ≠ none → o = .frame f := by
  intro behind
  obtain ⟨hidle, E₀, hE₀, -⟩ := h.writesAccepted
  have hstart : Idle { l with onWrite := nested } := ⟨hidle.pending, hidle.egress, hidle.writing⟩
  obtain ⟨E, hE, hg, hnil⟩ := grants_submitAll hstart os
  have hbehind : Upgraded before behind.1 := h.reaches (.submitAll (.onWrite .refl nested) os)
  have hevents : behind.1.events = before ++ (E₀ ++ E) := by
    rw [← List.append_assoc, ← hE₀]
    exact hE
  -- What is written is what was accepted, and that is the frames with their masks.
  have hchain : behind.1.chain = some ⟨[]⟩ := by
    have hreach : l.Reaches behind.1 := .submitAll (.onWrite .refl nested) os
    exact extensionCount?_eq_zero_iff.1
      ((hreach.extensionCount? hidle).trans (extensionCount?_eq_zero_iff.2 hc))
  obtain ⟨E', hE', hplain⟩ := (hbehind.plain hchain).events
  obtain rfl : E' = E₀ ++ E := List.append_cancel_left (hE'.symm.trans hevents)
  obtain ⟨masked, hall, hwire, hmasked⟩ := exists_masked hplain
  obtain ⟨E', hE', hwritten⟩ := hbehind.writesAccepted.2
  obtain rfl : E' = E₀ ++ E := List.append_cancel_left (hE'.symm.trans hevents)
  have hoctets : ((E₀ ++ E).filterMap Event.written?).flatten = masked.flatMap Frame.wire := by
    rw [hwritten, hwire, List.flatMap]
  refine ⟨E₀, E, masked, hE₀, hE, hg, hnil, hall, ?_,
    fun o _ f ho hlen hf => Outgoing.frame_of_fault ho hlen hf⟩
  intro octets hlimit
  have hrsv (g : Frame) (hg : g ∈ masked) : g.rsv ⊆ d.inUse := by
    rw [(hmasked g hg).1]
    exact ReservedBits.empty_subset _
  have hdrain := Decoder.drain_flatMap_wire hd
    fun g hg => ⟨hrsv g hg, (hmasked g hg).2, hlimit g hg⟩
  rwa [← hoctets] at hdrain

/-- The general statement for a text, a ping that is refused as it is too long, and a frame
with a reserved opcode: the peer reads the text, and has something against what follows. -/
theorem read_by_peer_of_reserved :
    let l : Link Extension.Identity :=
      (Channel.connect { keys := fun _ => 0 } () ([] : List Extension.Identity)).link
    let d : Decoder := {}
    let os : List Outgoing :=
      [.text "a", .ping (List.replicate 126 97), .frame (.single .reserved [])]
    let behind := submitAll l os
    let octets := (behind.1.events.filterMap Event.written?).flatten
    Upgraded [] l ∧ l.chain = some ⟨[]⟩ ∧ d.stage = .start
      ∧ behind.2 = [.ok (), .error (.codec .controlTooLong), .ok ()]
      ∧ (∃ key, (d.drain octets).frames = [(Frame.single .text [97]).withMask key])
      ∧ (d.drain octets).error = some .reservedOpcode := by
  intro l d os behind octets
  have hl : Upgraded [] l := .connect [] (fun _ => 0) () []
  obtain ⟨E₀, E, masked, hE₀, hE, -, -, hall, hread, -⟩ :=
    hl.read_by_peer rfl [] os (d := d) rfl
  have hE₀E : E₀ ++ E = behind.1.events := by
    rw [show E₀ = [] from hE₀.symm]
    exact hE.symm
  have haccepted : behind.1.events.filterMap Event.acceptedFrame?
      = [.single .text [97], .single .reserved []] := by decide +kernel
  rw [hE₀E, haccepted] at hall
  rw [hE₀E] at hread
  obtain - | ⟨⟨key, rfl⟩, - | ⟨⟨key', rfl⟩, ⟨⟩⟩⟩ := hall
  have hfault : d.fault? (.single .text [97]) = none := by decide
  have hfault' : d.fault? (.single .reserved []) = some .reservedOpcode := by decide
  obtain ⟨hframes, herror, -⟩ := hread (by simp [Frame.withMask, Frame.single, d])
  refine ⟨hl, rfl, rfl, by decide +kernel, ⟨key, ?_⟩, ?_⟩
  · exact hframes.trans (by simp [hfault, hfault'])
  · exact herror.trans (by simp [hfault, hfault'])

/-- **An accepted frame that the peer does not read.**  An application sends a ping of 126
octets as a frame of its own, where a ping would have been refused.  It is accepted and
written, and a fresh decoder has an error and no frame. -/
theorem accepted_and_not_decoded :
    let l : Link Extension.Identity :=
      (Channel.connect { keys := fun _ => 0 } () ([] : List Extension.Identity)).link
    let d : Decoder := {}
    let f : Frame := .single .ping (List.replicate 126 97)
    let behind := l.submit (.frame f)
    let octets := (behind.1.events.filterMap Event.written?).flatten
    Upgraded [] l ∧ l.chain = some ⟨[]⟩ ∧ behind.2 = .ok ()
      ∧ (l.submit (.ping f.payload)).2 = .error (.codec .controlTooLong)
      ∧ (d.drain octets).frames = []
      ∧ (d.drain octets).error = some .controlTooLong := by
  intro l d f behind octets
  have hl : Upgraded [] l := .connect [] (fun _ => 0) () []
  have hoctets : octets = [f.withMask 0].flatMap Frame.wire := by decide +kernel
  have hsent : ∀ g ∈ [f.withMask 0],
      g.rsv ⊆ d.inUse ∧ g.received = g ∧ g.payload.length ≤ d.limit.toNat := by decide +kernel
  obtain ⟨hframes, herror, -⟩ := Decoder.drain_flatMap_wire rfl hsent
  have hfault : d.fault? f = some .controlTooLong := by decide +kernel
  rw [← hoctets] at hframes herror
  refine ⟨hl, rfl, by decide +kernel, by decide +kernel, ?_, ?_⟩
  · exact hframes.trans (by simp [hfault])
  · exact herror.trans (by simp [hfault])

end Link

end WebSocket
