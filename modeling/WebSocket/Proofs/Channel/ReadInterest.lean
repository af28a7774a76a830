/-
WebSocket/Proofs/Channel/ReadInterest.lean

When a channel asks its endpoint to give word of octets.

Design.  Only `await` asks for it, at the end of a call, and all that a channel does with
frames leaves the matter alone (`Link.Quiet`).  So a call that makes a channel read ends in
one of two ways (`Listens`): the channel is closed, and nothing was asked for; or it is open,
it was asked for once, as the last of all, and the endpoint was not closed.  A closed channel
asks for nothing, whatever it is called for (`quiet_react_of_closed`).
-/
import WebSocket.Proofs.Channel.Shutdown

namespace WebSocket

namespace Link

variable {ε α : Type}

/-- Between `l` and `l'` the endpoint was not asked to give word. -/
def Quiet (l l' : Link ε) : Prop :=
  ∃ E : List Event, l'.events = l.events ++ E ∧ .fillInterested ∉ E

namespace Quiet

theorem of_events_eq {l l' : Link ε} (h : l'.events = l.events) : l.Quiet l' :=
  ⟨[], by simp [h], List.not_mem_nil⟩

theorem refl (l : Link ε) : l.Quiet l :=
  of_events_eq rfl

theorem trans {l l' l'' : Link ε} (h : l.Quiet l') (h' : l'.Quiet l'') : l.Quiet l'' := by
  obtain ⟨E, hE, hnot⟩ := h
  obtain ⟨E', hE', hnot'⟩ := h'
  exact ⟨E ++ E', by rw [hE', hE, List.append_assoc], by simp [hnot, hnot']⟩

theorem record (l : Link ε) {e : Event} (he : e ≠ .fillInterested) : l.Quiet (l.record e) :=
  ⟨[e], l.events_record e, by simp [he.symm]⟩

end Quiet

variable [Extension ε]

theorem Sending.quiet {l l' : Link ε} (h : l.Sending l') : l.Quiet l' := by
  obtain ⟨E, hE, hall⟩ := h.events
  exact ⟨E, hE, fun hmem => absurd (hall _ hmem) Bool.false_ne_true⟩

theorem quiet_incoming (l : Link ε) (f : Frame) : l.Quiet (l.incoming f).1 := by
  obtain ⟨chain, heq, -⟩ := exists_incoming_eq l f
  rw [heq]
  exact Quiet.of_events_eq rfl

/-- The task that writes the request does nothing but send. -/
theorem sending_transmit (l : Link ε) (octets : Bytes) : l.Sending (l.transmit octets) := by
  have hnested (l : Link ε) (o : Outgoing) : l.Sending (l.submitNested o) :=
    (sending_submit l o).note rfl
  unfold transmit
  split
  · exact .note .refl rfl
  · next sends onWrite _ =>
    have htaken : l.Sending { l with onWrite, pending := l.pending, writing := l.writing } :=
      .queue .refl _ _ _
    exact (htaken.trans (Sending.foldl hnested _ sends)).note rfl

end Link

namespace Channel

variable {σ ε : Type}

theorem quiet_shutdown (c : Channel σ ε) : c.link.Quiet c.shutdown.link :=
  ⟨[.close], Link.events_record _ _, by simp⟩

variable [Extension ε]

theorem quiet_respond (c : Channel σ ε) (f : Frame) : c.link.Quiet (c.respond f).link := by
  unfold respond
  split
  · have hsend := (Link.sending_send c.link (.single .pong f.payload)).quiet
    dsimp only
    split
    · exact hsend
    · exact hsend
    · exact hsend.trans (quiet_shutdown { c with link := _ })
  · dsimp only
    split
    · exact quiet_shutdown c
    · exact (Link.sending_send c.link _).quiet.trans (quiet_shutdown { c with link := _ })
  · exact .refl _

variable [Session σ]

theorem quiet_deliver (c : Channel σ ε) (f : Frame) : c.link.Quiet (c.deliver f).link := by
  have hsends : c.link.Quiet
      ((Session.receive c.session f).2.sends.foldl reply (c.link.record (.deliver f))) :=
    (Link.Quiet.record c.link Event.noConfusion).trans
      (Link.Sending.foldl Link.sending_reply _ _).quiet
  unfold deliver
  dsimp only
  split
  · exact hsends.trans (quiet_shutdown { c with session := _, link := _ })
  · exact hsends.trans (quiet_respond { c with session := _, link := _ } f)

theorem quiet_take (c : Channel σ ε) (f : Frame) : c.link.Quiet (c.take f).link := by
  have hin := Link.quiet_incoming c.link f
  unfold take
  dsimp only
  split
  · next g _ => exact hin.trans (quiet_deliver { c with link := _ } g)
  · exact hin.trans (quiet_shutdown { c with link := _ })

theorem quiet_process (c : Channel σ ε) (input : Bytes) :
    c.link.Quiet (c.process input).link := by
  induction c, input using process_induction with
  | closed c input hc =>
    rw [process_of_closed hc]
    exact .refl _
  | wait c input hc hd =>
    rw [process_of_wait hc hd]
    exact .refl _
  | error c input e hc hd =>
    rw [process_of_error hc hd]
    exact quiet_shutdown { c with decoder := _, buffer := _ }
  | frame c input f hc hd ih =>
    rw [process_of_frame hc hd]
    exact (quiet_take { c with decoder := (c.decoder.decode input).decoder } f).trans ih

theorem quiet_proceed (c : Channel σ ε) : c.link.Quiet c.proceed.link := by
  rw [proceed_eq_process]
  exact quiet_process c _

/-! ### Reading -/

omit [Extension ε] [Session σ] in
/-- A channel that was `b` has read and is now `c`. -/
inductive Listens (b c : Channel σ ε) : Prop
  | closed (hc : c.closed) (hquiet : b.link.Quiet c.link)
  | waits {E : List Event} (hc : c.closed = false) (hl : c.link.closed = false)
      (hE : c.link.events = b.link.events ++ (E ++ [.fillInterested]))
      (hquiet : .fillInterested ∉ E) (hclose : .close ∉ E)

variable {b c : Channel σ ε} {n : Nat}

omit [Extension ε] [Session σ] in
theorem listens_await (h : b.Settles n c) (hquiet : b.link.Quiet c.link) : b.Listens c.await := by
  unfold await
  split
  · next hc => exact .closed hc hquiet
  · next hc =>
    cases h with
    | @going _ E hc hl hE hnot =>
      obtain ⟨E', hE', hnot'⟩ := hquiet
      obtain rfl : E = E' := List.append_cancel_left (hE.symm.trans hE')
      refine .waits (E := E) hc hl ?_ hnot' hnot
      rw [← List.append_assoc, ← hE]
      exact Link.events_record _ .fillInterested
    | ended hclosed => exact absurd hclosed hc

/-- Reading ends by asking for word once, unless the channel is closed. -/
theorem listens_readable (h : b.Settles n c) (hquiet : b.link.Quiet c.link)
    (input : List Inbound) : b.Listens (c.readable input).1 := by
  have hfill {c : Channel σ ε} (h : b.Settles n c) (hc : c.closed = false) :
      b.Settles n (c.record .fill) := h.record hc Event.noConfusion rfl
  have hnote {c : Channel σ ε} (hquiet : b.link.Quiet c.link) :
      b.link.Quiet (c.record .fill).link := hquiet.trans (.record _ Event.noConfusion)
  induction c, input using readable_induction with
  | closed c input hc =>
    rw [readable_of_closed hc]
    exact .closed hc hquiet
  | nil c hc =>
    rw [readable_nil hc]
    exact listens_await (hfill h hc) (hnote hquiet)
  | empty c input hc =>
    rw [readable_empty hc]
    exact listens_await (hfill h hc) (hnote hquiet)
  | data_nil c input hc =>
    rw [readable_data_nil hc]
    exact listens_await (hfill h hc) (hnote hquiet)
  | data c octets input hc hne ih =>
    have hread : b.Settles n { c.record .fill with buffer := c.buffer ++ octets } :=
      (hfill h hc).of_events_eq rfl rfl rfl
    rw [readable_data hc hne]
    exact ih hread.proceed ((hnote hquiet).trans (quiet_proceed _))
  | ended c input hc =>
    rw [readable_ended hc]
    exact .closed rfl ((hnote hquiet).trans (quiet_shutdown _))
  | failed c message input hc =>
    rw [readable_failed hc]
    exact .closed rfl ((hnote hquiet).trans (quiet_shutdown _))

theorem listens_opened (hc : c.closed = false) (hl : c.link.closed = false) :
    c.Listens c.opened :=
  listens_await (Settles.refl hc hl).proceed (quiet_proceed c)

/-- A closed channel stays closed and asks for nothing. -/
theorem quiet_react_of_closed (hc : c.closed) (input : List Inbound) (cb : Callback) :
    (c.react input cb).1.closed ∧ c.link.Quiet (c.react input cb).1.link := by
  cases cb with
  | opened =>
    have hproceed : c.proceed = { c with buffer := c.buffer.toList.toArray } := by
      rw [proceed_eq_process, process_of_closed hc]
    have hopened : c.opened = c.proceed := by
      rw [opened, await, if_pos (by rw [hproceed]; exact hc)]
    show c.opened.closed ∧ c.link.Quiet c.opened.link
    rw [hopened, hproceed]
    exact ⟨hc, .refl _⟩
  | readable =>
    show (c.readable input).1.closed ∧ c.link.Quiet (c.readable input).1.link
    rw [readable_of_closed hc]
    exact ⟨hc, .refl _⟩
  | written failure =>
    rcases failure with - | message
    · exact ⟨hc, .refl _⟩
    · exact ⟨rfl, quiet_shutdown c⟩
  | aborted =>
    show c.aborted.closed ∧ c.link.Quiet c.aborted.link
    rw [aborted, if_pos hc]
    exact ⟨hc, .refl _⟩

end Channel

end WebSocket
