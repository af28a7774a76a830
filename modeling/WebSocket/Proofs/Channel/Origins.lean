/-
WebSocket/Proofs/Channel/Origins.lean

Where the frames that a channel sends come from.

Design.  A frame that is accepted was sent by the application, from outside, from within a write
or because of a frame that it was given, or it is an answer of the channel to such a frame
(`Frame.answer?`).  So a property of frames that all of these have is a property of all frames
that are accepted.  `Link.Only` is the invariant; it takes along what is yet to be sent from within
the coming writes.  There is one lemma for each function of the sending half, and one for what
is done with a frame (`only_take`), which is all that a call of the endpoint can send.

That a call of the endpoint does nothing else is said once, for any property of channels: what is
left by the few things that happen in a call, and by dealing with frames of some kind, is left by
the call if it meets frames of this kind only (`Preserved.react`).
-/
import WebSocket.Proofs.Channel.Course
import WebSocket.Proofs.Channel.SendOrder

namespace WebSocket

/-- All that can be sent of this has the property. -/
def Outgoing.MakesOnly (P : Frame → Prop) (o : Outgoing) : Prop :=
  ∀ f, o.toFrame = .ok f → P f

/-- What a channel answers to a frame that the application has accepted. -/
def Frame.answer? (g : Frame) : Option Frame :=
  match g.opcode with
  | .ping => some (.single .pong g.payload)
  | .close => some (.single .close (Close.answer g.payload))
  | _ => none

/-- All that is sent because of the frame has the property, by the application and by the
channel. -/
def Encounter.SendsOnly {σ ε : Type} [Extension ε] [Session σ] (P : Frame → Prop)
    (m : Encounter σ ε) : Prop :=
  ∀ g, (m.link.incoming m.frame).2 = .ok g →
    (∀ o ∈ (m.reaction g).sends, o.MakesOnly P)
      ∧ ((m.reaction g).refused = false → ∀ f ∈ g.answer?, P f)

/-! ### The sending half -/

namespace Link

variable {ε : Type}

/-- Behind `before` only frames with the property were accepted, and no others are sent from within
the coming writes. -/
structure Only (P : Frame → Prop) (before : List Event) (l : Link ε) : Prop where
  egress : l.egress = []
  events : ∃ E, l.events = before ++ E ∧ ∀ f octets, .accept f octets ∈ E → P f
  onWrite : ∀ sends ∈ l.onWrite, ∀ o ∈ sends, o.MakesOnly P

namespace Only

variable {P : Frame → Prop} {before : List Event} {l : Link ε}

theorem append {l' : Link ε} (h : l.Only P before) {E : List Event}
    (hE : l'.events = l.events ++ E) (hall : ∀ f octets, .accept f octets ∈ E → P f) :
    ∃ E', l'.events = before ++ E' ∧ ∀ f octets, .accept f octets ∈ E' → P f := by
  obtain ⟨E₀, hE₀, hall₀⟩ := h.events
  refine ⟨E₀ ++ E, by rw [hE, hE₀, List.append_assoc], fun f octets hmem => ?_⟩
  rcases List.mem_append.1 hmem with hmem | hmem
  · exact hall₀ f octets hmem
  · exact hall f octets hmem

/-- Whatever else is noted makes no difference. -/
theorem record (h : l.Only P before) {e : Event} (he : e.accepted? = none) :
    (l.record e).Only P before := by
  refine ⟨h.egress, h.append (events_record l e) fun f octets hmem => ?_, h.onWrite⟩
  rw [← List.mem_singleton.1 hmem] at he
  cases he

theorem foldl {α : Type} {step : Link ε → α → Link ε} {as : List α}
    (hstep : ∀ l, ∀ a ∈ as, l.Only P before → (step l a).Only P before) (h : l.Only P before) :
    (as.foldl step l).Only P before := by
  induction as generalizing l with
  | nil => exact h
  | cons a as ih =>
    exact ih (fun l a' ha' => hstep l a' (List.mem_cons_of_mem a ha'))
      (hstep l a List.mem_cons_self h)

variable [Extension ε]

theorem accept (h : l.Only P before) {f : Frame} (hf : P f) : (l.accept f).1.Only P before := by
  have ha := accepts_accept h.egress f
  generalize l.accept f = r at ha
  cases ha with
  | closed | notConnected => exact h
  | refused => exact ⟨h.egress, h.events, h.onWrite⟩
  | @accepted p p' g octets =>
    refine ⟨h.egress, h.append (E := [.accept f octets]) List.reverse_cons ?_, h.onWrite⟩
    intro f' octets' hmem
    cases List.mem_singleton.1 hmem
    exact hf

theorem acceptNested (h : l.Only P before) {o : Outgoing} (ho : o.MakesOnly P) :
    (l.acceptNested o).Only P before := by
  unfold Link.acceptNested
  split
  · exact h.record rfl
  · next f hf => exact (h.accept (ho f hf)).record rfl

/-- What is sent from within the writes of the queue has the property, so it is all the same how
many there are. -/
theorem flushThrough {nested : List (List Outgoing)} (h : l.Only P before)
    (hnested : ∀ sends ∈ nested, ∀ o ∈ sends, o.MakesOnly P) :
    (flushThrough nested l).Only P before := by
  -- By the writes from within which something is sent; behind these the queue is written as it is.
  induction nested generalizing l with
  | nil =>
    refine ⟨h.egress, h.append (E := l.pending.map .write) ?_ ?_, List.forall_mem_nil _⟩
    · simp [Link.flushThrough, Link.events]
    · intro f octets hmem
      obtain ⟨_, -, heq⟩ := List.mem_map.1 hmem
      cases heq
  | cons sends later ih =>
    rw [Link.flushThrough]
    split
    · exact ⟨h.egress, h.events, hnested⟩
    · next octets pending hp =>
      have hqueue : ({ l with pending } : Link ε).Only P before := ⟨h.egress, h.events, h.onWrite⟩
      have hsends : (sends.foldl Link.acceptNested { l with pending }).Only P before :=
        hqueue.foldl fun l o ho hl => hl.acceptNested (hnested sends List.mem_cons_self o ho)
      exact ih (hsends.record rfl) fun sends' hmem => hnested sends' (List.mem_cons_of_mem _ hmem)

theorem send (h : l.Only P before) {f : Frame} (hf : P f) : (l.send f).1.Only P before := by
  have haccept := h.accept hf
  unfold Link.send
  rcases ha : l.accept f with ⟨l', e | ⟨⟩⟩
  · rw [ha] at haccept
    exact haccept
  · rw [ha] at haccept
    dsimp only
    split
    · exact haccept
    · have hqueue : ({ l' with onWrite := [], writing := true } : Link ε).Only P before :=
        ⟨haccept.egress, haccept.events, List.forall_mem_nil _⟩
      exact hqueue.flushThrough haccept.onWrite

theorem submit (h : l.Only P before) {o : Outgoing} (ho : o.MakesOnly P) :
    (l.submit o).1.Only P before := by
  unfold Link.submit
  split
  · exact h
  · next f hf => exact h.send (ho f hf)

theorem incoming (h : l.Only P before) (f : Frame) : (l.incoming f).1.Only P before := by
  obtain ⟨chain, heq, -⟩ := exists_incoming_eq l f
  rw [heq]
  exact ⟨h.egress, h.events, h.onWrite⟩

end Only

end Link

/-! ### Dealing with a frame -/

namespace Channel

variable {σ ε : Type} [Extension ε] {P : Frame → Prop} {before : List Event} {c : Channel σ ε}

omit [Extension ε] in
theorem only_shutdown (h : c.link.Only P before) : c.shutdown.link.Only P before :=
  Link.Only.record (l := { c.link with closed := true }) ⟨h.egress, h.events, h.onWrite⟩ rfl

theorem only_respond (h : c.link.Only P before) {g : Frame} (hg : ∀ f ∈ g.answer?, P f) :
    (c.respond g).link.Only P before := by
  by_cases hclose : g.opcode = .close
  · have hanswer : P (.single .close (Close.answer g.payload)) :=
      hg _ (by simp [Frame.answer?, hclose])
    rw [respond_of_close hclose, Link.answerClose]
    -- If a close frame was sent already, there is no answer.  The channel shuts down either way.
    refine only_shutdown ?_
    dsimp only
    split
    · exact h
    · exact h.send hanswer
  by_cases hping : g.opcode = .ping
  · have hpong : P (.single .pong g.payload) := hg _ (by simp [Frame.answer?, hping])
    have hsend := h.send hpong
    rcases hr : (c.link.send (.single .pong g.payload)).2 with e | ⟨⟩
    · rw [respond_of_pong_error hping hr]
      split
      · exact hsend
      · exact only_shutdown hsend
    · rw [respond_of_pong_sent hping hr]
      exact hsend
  · rw [respond_of_other hclose hping]
    exact h

variable [Session σ]

/-- Because of a frame nothing is sent but what the encounter says. -/
theorem only_take (h : c.link.Only P before) {f : Frame} (hf : (c.encounter f).SendsOnly P) :
    (c.take f).link.Only P before := by
  rcases hin : ((c.encounter f).link.incoming (c.encounter f).frame).2 with e | g
  · rw [take]
    simp only [show (c.link.incoming f).2 = .error e from hin]
    exact only_shutdown (h.incoming f)
  · obtain ⟨hsends, hanswer⟩ := hf g hin
    -- The application comes first, and what it sends makes the link that the answer is sent on.
    have hbehind : ((c.encounter f).linkBehind g).Only P before :=
      ((h.incoming f).record rfl).foldl fun _ o ho hl => (hl.submit (hsends o ho)).record rfl
    rcases href : ((c.encounter f).reaction g).refused with - | -
    · rw [take_of_not_refused hin href]
      exact only_respond hbehind (hanswer href)
    · rw [take_of_refused hin href]
      exact only_shutdown hbehind

/-! ### A call of the endpoint -/

/-- All that happens in a call of the endpoint leaves a channel with this property, if the frames
that are met are of this kind. -/
structure Preserved (good : Encounter σ ε → Prop) (I : Channel σ ε → Prop) : Prop where
  decode {c : Channel σ ε} (h : I c) (decoder : Decoder) (buffer : Array UInt8) :
    I { c with decoder, buffer }
  fill {c : Channel σ ε} (h : I c) : I (c.record .fill)
  fillInterested {c : Channel σ ε} (h : I c) : I (c.record .fillInterested)
  shutdown {c : Channel σ ε} (h : I c) : I c.shutdown
  take {c : Channel σ ε} (h : I c) {f : Frame} (hf : good (c.encounter f)) : I (c.take f)

namespace Preserved

variable {good : Encounter σ ε → Prop} {I : Channel σ ε → Prop}

theorem process (hI : Preserved good I) {input : Bytes} (h : I c)
    (hgood : ∀ m ∈ c.encounters (c.decoder.drain input).frames, good m) :
    I (c.process input) := by
  induction c, input using process_induction with
  | closed c input hc =>
    rw [process_of_closed hc]
    exact hI.decode h c.decoder _
  | wait c input hc hr =>
    rw [process_of_wait hc hr]
    exact hI.decode h _ _
  | error c input e hc hr =>
    rw [process_of_error hc hr]
    exact hI.shutdown (hI.decode h _ _)
  | frame c input f hc hr ih =>
    rw [Decoder.drain_of_frame hr, encounters_cons hc] at hgood
    rw [process_of_frame hc hr]
    have hread : I { c with decoder := (c.decoder.decode input).decoder } :=
      hI.decode h _ c.buffer
    apply ih
    · exact hI.take hread (hgood _ List.mem_cons_self)
    · rw [encounters_take]
      exact fun m hm => hgood m (List.mem_cons_of_mem _ hm)

theorem proceed (hI : Preserved good I) (h : I c) (hgood : ∀ m ∈ c.encountered, good m) :
    I c.proceed := by
  rw [proceed_eq_process]
  exact hI.process h hgood

theorem await (hI : Preserved good I) (h : I c) : I c.await := by
  unfold Channel.await
  split
  · exact h
  · exact hI.fillInterested h

theorem readable (hI : Preserved good I) {input : List Inbound} (h : I c)
    (hgood : ∀ m ∈ c.readEncounters input, good m) : I (c.readable input).1 := by
  induction c, input using readable_induction with
  | closed c input hc =>
    rw [readable_of_closed hc]
    exact h
  | nil c hc =>
    rw [readable_nil hc]
    exact hI.await (hI.fill h)
  | empty c input hc =>
    rw [readable_empty hc]
    exact hI.await (hI.fill h)
  | data_nil c input hc =>
    rw [readable_data_nil hc]
    exact hI.await (hI.fill h)
  | data c octets input hc hne ih =>
    rw [readable_data hc hne]
    rw [readEncounters_data hc hne] at hgood
    have hread : I { c.record .fill with buffer := c.buffer ++ octets } :=
      hI.decode (hI.fill h) c.decoder _
    exact ih (hI.proceed hread fun m hm => hgood m (List.mem_append_left _ hm))
      fun m hm => hgood m (List.mem_append_right _ hm)
  | ended c input hc =>
    rw [readable_ended hc]
    exact hI.shutdown (hI.fill h)
  | failed c message input hc =>
    rw [readable_failed hc]
    exact hI.shutdown (hI.fill h)

/-- Each call of the endpoint leaves the property if it meets frames of the kind only. -/
theorem react (hI : Preserved good I) {input : List Inbound} {cb : Callback} (h : I c)
    (hgood : ∀ m ∈ c.encountersOn input cb, good m) : I (c.react input cb).1 := by
  cases cb with
  | opened => exact hI.await (hI.proceed h hgood)
  | readable => exact hI.readable h hgood
  | written failure =>
    unfold Channel.react written
    dsimp only
    split
    · exact hI.shutdown h
    · exact h
  | aborted =>
    unfold Channel.react aborted
    dsimp only
    split
    · exact h
    · exact hI.shutdown h

end Preserved

/-- In a call of the endpoint nothing is sent but what the encounters say. -/
theorem preserved_only (P : Frame → Prop) (before : List Event) :
    Preserved (σ := σ) (ε := ε) (Encounter.SendsOnly P) fun c => c.link.Only P before where
  decode h _ _ := h
  fill h := h.record rfl
  fillInterested h := h.record rfl
  shutdown h := only_shutdown h
  take h _ hf := only_take h hf

end Channel

end WebSocket
