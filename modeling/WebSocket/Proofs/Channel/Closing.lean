/-
WebSocket/Proofs/Channel/Closing.lean

The closing handshake, from the side of the link.

Design.  `Closes` is the invariant.  It ties the close frames among what was accepted since
the channel was connected to the flag `closeSent`: where there is one, it is the last that
was accepted and the flag is set; where the flag is set, there is one, unless it was refused.
It holds at each moment, also in the middle of a write, as accepting a frame is the only step
that matters (`Closes.accept`).

Whether a frame was refused by an extension or by the encoder shows in the number of masks:
each frame that reaches the extensions draws one, so as many masks as accepted frames means
that none of them was refused (`Closes.refusals_accept`).

From this it follows that after the peer's close frame there is exactly one of ours, sent
before or as the answer (`Closes.answered`).
-/
import WebSocket.Proofs.Channel.Course
import WebSocket.Proofs.Channel.History
import WebSocket.Proofs.Channel.Refusal
import WebSocket.Proofs.Extension.KeepsOpcode
import WebSocket.Proofs.Frame.RoundTrip

namespace WebSocket

/-! ### Close frames among octets -/

/-- Whether these are the octets of a close frame. -/
def Bytes.isClose : Bytes → Bool
  | [] => false
  | first :: _ => Opcode.ofNat? (first.toNat % 16) = some .close

theorem Frame.isClose_encode {inUse : ReservedBits} {f : Frame} {octets : Bytes}
    (h : f.encode inUse = .ok octets) : octets.isClose = decide (f.opcode = .close) := by
  obtain ⟨hopcode, -, -⟩ := fields_firstByte f.toHeader
  rw [Link.wire_of_encode h]
  show decide (Opcode.ofNat? ((firstByte f.toHeader).toNat % 16) = some .close) = _
  simp only [hopcode, Option.some_inj]

/-- Where nothing is behind a close frame, there is at most one, and it is the last. -/
theorem exists_close_last {written : List Bytes} {octets : Bytes}
    (horder : written.Pairwise fun octets _ => octets.isClose = false)
    (hmem : octets ∈ written) (hclose : octets.isClose) :
    ∃ front, written = front ++ [octets] ∧ ∀ o ∈ front, o.isClose = false := by
  obtain ⟨front, back, rfl⟩ := List.append_of_mem hmem
  obtain ⟨-, hback, hfront⟩ := List.pairwise_append.1 horder
  have hnil : back = [] := by
    rcases back with - | ⟨o, back⟩
    · rfl
    · have hnot := (List.pairwise_cons.1 hback).1 o List.mem_cons_self
      exact absurd hclose (by simp [hnot])
  subst hnil
  exact ⟨front, rfl, fun o ho => hfront o ho octets List.mem_cons_self⟩

theorem Event.exists_accept_of_mem {E : List Event} {octets : Bytes}
    (h : octets ∈ E.filterMap Event.accepted?) : ∃ f, .accept f octets ∈ E := by
  obtain ⟨e, he, hoctets⟩ := List.mem_filterMap.1 h
  cases e with
  | accept f o =>
    obtain rfl : o = octets := Option.some.inj hoctets
    exact ⟨f, he⟩
  | _ => cases hoctets

namespace Link

variable {ε : Type}

/-- The link of a channel that was just connected: nothing was sent yet. -/
structure Fresh (l : Link ε) : Prop where
  idle : l.Idle
  chain : l.chain.isSome
  closed : l.closed = false
  closeSent : l.closeSent = false
  drawn : l.drawn = 0

theorem Fresh.record {l : Link ε} (h : l.Fresh) (e : Event) : (l.record e).Fresh :=
  ⟨⟨h.idle.pending, h.idle.egress, h.idle.writing⟩, h.chain, h.closed, h.closeSent, h.drawn⟩

/-! ### The invariant -/

/-- The number of sends that an extension or the encoder has refused, where `E` is what has
happened since the channel was connected: each frame that reaches the extensions draws a
mask. -/
def refusals (E : List Event) (l : Link ε) : Nat :=
  l.drawn - (E.filterMap Event.accepted?).length

/-- Since the channel was connected `E` has happened.  Of what was accepted, a close frame
is the last, and `closeSent` tells whether there was one, unless some frame was refused. -/
structure Closes (E : List Event) (l : Link ε) : Prop where
  egress : l.egress = []
  chain : l.chain.isSome
  kind : ∀ f octets, .accept f octets ∈ E → octets.isClose = decide (f.opcode = .close)
  order : (E.filterMap Event.accepted?).Pairwise fun octets _ => octets.isClose = false
  closeSent : (∃ octets ∈ E.filterMap Event.accepted?, octets.isClose) → l.closeSent
  drawn : (E.filterMap Event.accepted?).length ≤ l.drawn
  sent : l.closeSent → (∃ octets ∈ E.filterMap Event.accepted?, octets.isClose)
    ∨ 0 < l.refusals E

theorem Fresh.closes {l : Link ε} (h : l.Fresh) : l.Closes [] where
  egress := h.idle.egress
  chain := h.chain
  kind _ _ hmem := by cases hmem
  order := .nil
  closeSent hclose := by simp at hclose
  drawn := Nat.zero_le _
  sent hsent := by
    rw [h.closeSent] at hsent
    cases hsent

namespace Closes

variable {E : List Event} {l l' : Link ε}

/-- Whatever else is noted makes no difference. -/
theorem note (h : l.Closes E) {e : Event} (he : e.accepted? = none) :
    (l.record e).Closes (E ++ [e]) := by
  have hsame : (E ++ [e]).filterMap Event.accepted? = E.filterMap Event.accepted? := by
    simp [he]
  refine ⟨h.egress, h.chain, ?_, ?_, ?_, ?_, ?_⟩
  · intro f octets hmem
    rcases List.mem_append.1 hmem with hmem | hmem
    · exact h.kind f octets hmem
    · rw [← List.mem_singleton.1 hmem] at he
      cases he
  · rw [hsame]
    exact h.order
  · rw [hsame]
    exact h.closeSent
  · rw [hsame]
    exact h.drawn
  · rw [refusals, hsame]
    exact h.sent

/-- No close frame was accepted while frames can be sent. -/
theorem not_close (h : l.Closes E) (hopen : l.closeSent = false) {octets : Bytes}
    (hmem : octets ∈ E.filterMap Event.accepted?) : octets.isClose = false := by
  apply Bool.eq_false_iff.2
  intro hclose
  have hsent := h.closeSent ⟨octets, hmem, hclose⟩
  exact absurd hsent (by simp [hopen])

variable [Extension ε]

theorem accept (hε : Extension.KeepsOpcode ε) (h : l.Closes E) (f : Frame) :
    ∃ E', (l.accept f).1.events = l.events ++ E' ∧ (l.accept f).1.Closes (E ++ E') := by
  have hf := accepts_accept h.egress f
  generalize l.accept f = r at hf
  cases hf with
  | closed | notConnected => exact ⟨[], (List.append_nil _).symm, by rwa [List.append_nil]⟩
  | refused hopen =>
    have hsent : l.closeSent = false := (Bool.or_eq_false_iff.1 hopen).2
    have hdrawn := h.drawn
    refine ⟨[], (List.append_nil _).symm, ?_⟩
    rw [List.append_nil]
    refine ⟨h.egress, rfl, h.kind, h.order, ?_, ?_, ?_⟩
    · rintro ⟨octets, hmem, hclose⟩
      exact absurd (h.not_close hsent hmem) (by simp [hclose])
    · exact Nat.le_succ_of_le hdrawn
    · intro _
      right
      show 0 < l.drawn + 1 - _
      omega
  | @accepted p p' g octets hopen hc hp hg =>
    have hsent : l.closeSent = false := (Bool.or_eq_false_iff.1 hopen).2
    have hkind : octets.isClose = decide (f.opcode = .close) := by
      rw [Frame.isClose_encode hg, Pipeline.opcode_outgoing hε hp]
    have hall : (E ++ [Event.accept f octets]).filterMap Event.accepted?
        = E.filterMap Event.accepted? ++ [octets] := by simp [Event.accepted?]
    refine ⟨[.accept f octets], events_record l _, h.egress, rfl, ?_, ?_, ?_, ?_, ?_⟩
    · intro f' octets' hmem
      rcases List.mem_append.1 hmem with hmem | hmem
      · exact h.kind f' octets' hmem
      · obtain ⟨rfl, rfl⟩ := Event.accept.inj (List.mem_singleton.1 hmem)
        exact hkind
    · rw [hall]
      refine List.pairwise_append.2 ⟨h.order, List.pairwise_singleton _ _, ?_⟩
      intro o ho _ _
      exact h.not_close hsent ho
    · rw [hall]
      rintro ⟨o, ho, hclose⟩
      rcases List.mem_append.1 ho with ho | ho
      · exact absurd (h.not_close hsent ho) (by simp [hclose])
      · rw [List.mem_singleton.1 ho, hkind] at hclose
        exact hclose
    · rw [hall, List.length_append]
      exact Nat.succ_le_succ h.drawn
    · intro hclose
      left
      rw [hall]
      exact ⟨octets, by simp, by rw [hkind]; exact hclose⟩

/-- With each frame that is accepted or refused, the number of refusals says which. -/
theorem refusals_accept (h : l.Closes E) (f : Frame) {E' : List Event}
    (hE' : (l.accept f).1.events = l.events ++ E') :
    (l.accept f).1.refusals (E ++ E') = l.refusals E
      + if (refusal (l.accept f).2).any ChannelError.ofFrame then 1 else 0 := by
  have hf := accepts_accept h.egress f
  have hdrawn := h.drawn
  generalize l.accept f = r at hf hE'
  cases hf with
  | closed | notConnected =>
    obtain rfl : [] = E' := List.append_cancel_left ((List.append_nil _).trans hE')
    simp [refusal, ChannelError.ofFrame]
  | refused hopen hc he =>
    obtain rfl : [] = E' := List.append_cancel_left ((List.append_nil _).trans hE')
    simp only [List.append_nil, refusal, Option.any_some, he, if_true]
    show l.drawn + 1 - _ = l.drawn - _ + 1
    omega
  | @accepted p p' g octets =>
    obtain rfl : [.accept f octets] = E' :=
      List.append_cancel_left ((events_record l (.accept f octets)).symm.trans hE')
    simp [refusals, refusal, Event.accepted?]

theorem kept (hε : Extension.KeepsOpcode ε) : Kept fun E (l : Link ε) => l.Closes E where
  accept h f := h.accept hε f
  note h _ he := h.note he
  aside h _ hchain _ _ _ _ :=
    ⟨h.egress, hchain.trans h.chain, h.kind, h.order, h.closeSent, h.drawn, h.sent⟩

/-- At each moment of sending. -/
theorem sending (hε : Extension.KeepsOpcode ε) (h : l.Closes E) (hl : l.Sending l') :
    ∃ E', l'.events = l.events ++ E' ∧ l'.Closes (E ++ E') :=
  (kept hε).sending h hl

/-- Between all that a channel does. -/
theorem reaches (hε : Extension.KeepsOpcode ε) (h : l.Closes E) (hl : l.Reaches l') :
    ∃ E', l'.events = l.events ++ E' ∧ l'.Closes (E ++ E') :=
  (kept hε).reaches h hl

/-- Behind a close frame that was accepted, every frame is refused, and nothing changes. -/
theorem refuses (h : l.Closes E) {f : Frame} {octets : Bytes} (hmem : .accept f octets ∈ E)
    (hclose : f.opcode = .close) (g : Frame) :
    l.send g = (l, .error .closed) ∧ l.accept g = (l, .error .closed) := by
  have hsent : l.closeSent := by
    refine h.closeSent ⟨octets, List.mem_filterMap.2 ⟨_, hmem, rfl⟩, ?_⟩
    rw [h.kind f octets hmem]
    exact decide_eq_true hclose
  exact ⟨send_of_closeSent hsent g, accept_of_closeSent hsent g⟩

/-! ### The answer -/

/-- A close frame that can be sent is accepted or refused, and counts as sent. -/
theorem accept_close (h : l.Closes E) (hclosed : l.closed = false) (hopen : l.closeSent = false)
    {f : Frame} (hf : f.opcode = .close) :
    (l.accept f).1.closeSent
      ∧ ((∃ e, l.accept f = ((l.accept f).1, .error e) ∧ (l.accept f).1.events = l.events)
        ∨ ∃ octets, (l.accept f).1.events = l.events ++ [.accept f octets]) := by
  have ha := accepts_accept h.egress f
  generalize l.accept f = r at ha ⊢
  cases ha with
  | closed hnot => simp [hclosed, hopen] at hnot
  | notConnected _ hc => exact absurd h.chain (by simp [hc])
  | refused => exact ⟨decide_eq_true hf, .inl ⟨_, rfl, rfl⟩⟩
  | @accepted p p' g octets => exact ⟨decide_eq_true hf, .inr ⟨octets, events_record l _⟩⟩

/-- A close frame that can be sent is accepted, unless some frame was refused. -/
theorem send_close (hε : Extension.KeepsOpcode ε) (h : l.Closes E) (hclosed : l.closed = false)
    (hopen : l.closeSent = false) {f : Frame} (hf : f.opcode = .close) :
    ∃ E', (l.send f).1.events = l.events ++ E' ∧ (l.send f).1.Closes (E ++ E')
      ∧ ((l.send f).1.refusals (E ++ E') = 0 →
        ∃ octets, .accept f octets ∈ E ++ E' ∧ octets.isClose) := by
  obtain ⟨hsent, hcases⟩ := h.accept_close hclosed hopen hf
  obtain ⟨E₁, hE₁, h₁⟩ := h.accept hε f
  rcases hcases with ⟨e, hrefused, hevents⟩ | ⟨octets, hevents⟩
  · -- The frame was refused, and no other close frame was accepted.
    obtain rfl : [] = E₁ := List.append_cancel_left
      ((List.append_nil _).trans (hevents.symm.trans hE₁))
    have hstop : (l.send f).1 = (l.accept f).1 := by rw [send, hrefused]
    rw [hstop]
    refine ⟨[], hE₁, h₁, ?_⟩
    intro hnone
    rw [List.append_nil] at h₁ hnone
    rcases h₁.sent hsent with ⟨octets, hmem, hclose⟩ | hpos
    · exact absurd (h.not_close hopen hmem) (by simp [hclose])
    · omega
  · obtain rfl : [.accept f octets] = E₁ := List.append_cancel_left (hevents.symm.trans hE₁)
    obtain ⟨E₂, hE₂, h₂⟩ := h₁.sending hε (accept_sending_send l f)
    have hmem : .accept f octets ∈ E ++ ([.accept f octets] ++ E₂) := by simp
    rw [List.append_assoc] at h₂
    refine ⟨[.accept f octets] ++ E₂, ?_, h₂, ?_⟩
    · rw [hE₂, hE₁, List.append_assoc]
    · intro _
      exact ⟨octets, hmem, (h₂.kind f octets hmem).trans (decide_eq_true hf)⟩

/-- When the peer's close frame was answered, there is a close frame of ours, unless some
frame was refused: one that was sent before, or else the answer. -/
theorem answered (hε : Extension.KeepsOpcode ε) (h : l.Closes E) (hclosed : l.closed = false)
    (payload : Bytes) :
    ∃ E', (l.answerClose payload).events = l.events ++ E'
      ∧ (l.answerClose payload).Closes (E ++ E')
      ∧ ((l.answerClose payload).refusals (E ++ E') = 0 →
        ∃ f octets, .accept f octets ∈ E ++ E' ∧ octets.isClose
          ∧ (l.closeSent = false → f = .single .close (Close.answer payload))) := by
  unfold answerClose
  split
  · next hsent =>
    refine ⟨[], (List.append_nil _).symm, by rwa [List.append_nil], ?_⟩
    intro hnone
    rw [List.append_nil] at hnone ⊢
    rcases h.sent hsent with ⟨octets, hmem, hclose⟩ | hrefused
    · obtain ⟨f, hf⟩ := Event.exists_accept_of_mem hmem
      exact ⟨f, octets, hf, hclose, fun hopen => absurd hsent (by simp [hopen])⟩
    · omega
  · next hnot =>
    obtain ⟨E', hE', hcloses, hanswer⟩ := h.send_close hε hclosed (by simpa using hnot)
      (f := .single .close (Close.answer payload)) rfl
    refine ⟨E', hE', hcloses, ?_⟩
    intro hnone
    obtain ⟨octets, hmem, hclose⟩ := hanswer hnone
    exact ⟨_, octets, hmem, hclose, fun _ => rfl⟩

end Closes

/-! ### Links that occur -/

variable [Extension ε]

theorem fresh_connect (log : List Event) (onWrite : List (List Outgoing)) (keys : Nat → UInt32)
    {σ : Type} (session : σ) (extensions : List ε) :
    (Channel.connect { log, onWrite, keys } session extensions).link.Fresh :=
  ⟨⟨rfl, rfl, rfl⟩, rfl, rfl, rfl, rfl⟩

/-- What was written since then is what was accepted. -/
theorem Fresh.written_eq_accepted {l l' : Link ε} (h : l.Fresh) (hl : l.Reaches l')
    {E : List Event} (hE : l'.events = l.events ++ E) :
    E.filterMap Event.written? = E.filterMap Event.accepted? := by
  obtain ⟨W, hW, heq⟩ := (hl.writesAccepted h.idle).2
  obtain rfl : W = E := List.append_cancel_left (hW.symm.trans hE)
  exact heq

end Link

/-! ### The close frame of the peer -/

/-- Where the application accepts the peer's close frame, the link is `answered` before the
endpoint is closed for the first time.  If no frame was refused until then, one close frame was
written, and it was the last that was: one that was sent before, or else the answer. -/
theorem Channel.Meets.closing {σ ε : Type} [Extension ε] [Session σ]
    (hε : Extension.KeepsOpcode ε) {c k : Channel σ ε} {met : List (Encounter σ ε)}
    (h : c.Meets met k) (hfresh : c.link.Fresh) (hc : c.closed = false) (hk : k.closed = false)
    {f g : Frame} (hin : ((k.encounter f).link.incoming (k.encounter f).frame).2 = .ok g)
    (hclose : g.opcode = .close) (href : ((k.encounter f).reaction g).refused = false) :
    let behind := (k.encounter f).linkBehind g
    let answered := behind.answerClose g.payload
    ∃ X : List Event, answered.events = c.link.events ++ X
      ∧ (k.take f).link.events = c.link.events ++ X ++ [.close]
      ∧ .close ∉ X
      ∧ (answered.refusals X = 0 →
        ∃ front octets, X.filterMap Event.written? = front ++ [octets]
          ∧ octets.isClose ∧ (∀ o ∈ front, o.isClose = false)
          ∧ if behind.closeSent then answered = behind
            else .accept (.single .close (Close.answer g.payload)) octets ∈ X) := by
  intro behind answered
  have hreach : c.link.Reaches behind := h.reaches.trans (reaches_linkBehind k f g)
  obtain ⟨⟨E, hE, -, hnot⟩, hlink⟩ := h.logged hc
  -- Until the answer is sent, the endpoint is not closed.
  have hserves : k.link.Serves (some g) answered :=
    serves_of_sending (Link.sending_answerClose behind g.payload)
  obtain ⟨E', hE', -, hnot'⟩ := hserves.events
  have hX : answered.events = c.link.events ++ (E ++ E') := by
    rw [hE', hE, List.append_assoc]
  have hopen : behind.closed = false := by
    rw [(serves_of_sending (f := f) (g := g) (.refl)).closed, hlink, hfresh.closed, hk]
    rfl
  obtain ⟨B, hB, hcloses⟩ := hfresh.closes.reaches hε hreach
  obtain ⟨A, hA, hanswered, hsent⟩ := hcloses.answered hε hopen g.payload
  have hboth : c.link.events ++ ([] ++ B ++ A) = c.link.events ++ (E ++ E') := by
    rw [← hX, ← List.append_assoc, List.nil_append, ← hB]
    exact hA.symm
  have hsame : [] ++ B ++ A = E ++ E' := List.append_cancel_left hboth
  rw [hsame] at hanswered hsent
  refine ⟨E ++ E', hX, ?_, ?_, ?_⟩
  · rw [take_of_close hin href hclose, ← hX]
    exact Link.events_record _ .close
  · simpa [hk, hnot'] using hnot
  · intro hnone
    obtain ⟨f', octets, hmem, hoctets, hanswer⟩ := hsent hnone
    -- What was written is what was accepted, so the close frame among it is the last.
    have hwritten := hfresh.written_eq_accepted
      (hreach.trans (Link.reaches_answerClose behind g.payload)) hX
    obtain ⟨front, hall, hfront⟩ :=
      exists_close_last hanswered.order (List.mem_filterMap.2 ⟨_, hmem, rfl⟩) hoctets
    refine ⟨front, octets, hwritten.trans hall, hoctets, hfront, ?_⟩
    split
    · next hbefore => exact if_pos hbefore
    · next hbefore =>
      rw [← hanswer (by simpa using hbefore)]
      exact hmem

end WebSocket
