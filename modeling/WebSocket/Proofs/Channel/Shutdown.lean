/-
WebSocket/Proofs/Channel/Shutdown.lean

A channel closes its endpoint once, and then it does nothing any more.

Design.  `Settles` is the invariant of a channel that was open at first.  It is still open and
has not closed the endpoint, or it is closed, and then closing was the last that happened.
Reading goes on only while the channel is open (`Settles.process`, `Settles.readable`), and
whatever is sent later is refused, so there is one lemma for each function, none of which has
anything to do where the channel is closed.

There is one exception, and the invariant counts it: whenever a failed write is reported, the
endpoint is closed, also if it was closed before (`Settles.late`).
-/
import WebSocket.Proofs.Channel.Encounter
import WebSocket.Proofs.Channel.Process

namespace WebSocket

namespace Link

variable {ε : Type} [Extension ε]

/-- Whatever is sent on a closed link is refused, and nothing changes. -/
theorem submit_of_closed {l : Link ε} (h : l.closed) (o : Outgoing) : (l.submit o).1 = l := by
  unfold submit
  split
  · rfl
  · simp [send, accept, prepare, h]

end Link

/-- Whether a failed write is reported when the endpoint was closed before. -/
def Connection.isLate {σ : Type} (k : Connection σ) : Callback → Bool
  | .written failure => failure.isSome && k.closed
  | _ => false

namespace Channel

variable {σ ε : Type}

/-- A channel that was `b` and open is now `c`.  Since it was closed, `late` failed writes were
reported to it. -/
inductive Settles (b : Channel σ ε) : (late : Nat) → (c : Channel σ ε) → Prop
  | going {c : Channel σ ε} {E : List Event} (hc : c.closed = false) (hl : c.link.closed = false)
      (hE : c.link.events = b.link.events ++ E) (hnot : .close ∉ E) : Settles b 0 c
  | ended {c : Channel σ ε} {late : Nat} {E : List Event} (hc : c.closed) (hl : c.link.closed)
      (hE : c.link.events = b.link.events ++ (E ++ List.replicate (late + 1) .close))
      (hnot : .close ∉ E) : Settles b late c

namespace Settles

variable {b c c' : Channel σ ε} {n : Nat}

theorem refl (hc : c.closed = false) (hl : c.link.closed = false) : c.Settles 0 c :=
  .going (E := []) hc hl (List.append_nil _).symm List.not_mem_nil

/-- Only the flags and the log matter. -/
theorem of_events_eq (h : b.Settles n c) (hc : c'.closed = c.closed)
    (hl : c'.link.closed = c.link.closed) (hE : c'.link.events = c.link.events) :
    b.Settles n c' := by
  cases h with
  | going hc₀ hl₀ hE₀ hnot => exact .going (hc.trans hc₀) (hl.trans hl₀) (hE.trans hE₀) hnot
  | ended hc₀ hl₀ hE₀ hnot => exact .ended (hc.trans hc₀) (hl.trans hl₀) (hE.trans hE₀) hnot

theorem shutdown (h : b.Settles n c) (hc : c.closed = false) : b.Settles n c.shutdown := by
  cases h with
  | @going _ E _ _ hE hnot =>
    refine .ended (E := E) rfl rfl ?_ hnot
    rw [← List.append_assoc, ← hE]
    exact Link.events_record _ .close
  | ended hclosed => exact absurd hclosed (by simp [hc])

/-- The failure of a write that was reported late closes the endpoint again. -/
theorem late (h : b.Settles n c) (hc : c.closed) : b.Settles (n + 1) c.shutdown := by
  cases h with
  | going hopen => exact absurd hc (by simp [hopen])
  | @ended _ _ E _ _ hE hnot =>
    refine .ended (E := E) rfl rfl ?_ hnot
    rw [List.replicate_succ', ← List.append_assoc E, ← List.append_assoc, ← hE]
    exact Link.events_record _ .close

/-- What does not close the endpoint leaves an open channel open. -/
theorem serves [Extension ε] (h : b.Settles n c) (hc : c.closed = false)
    {given : Option Frame} {l : Link ε} (hl : c.link.Serves given l) (session : σ) :
    b.Settles n { c with session, link := l } := by
  obtain ⟨hclosed, E', hE', -, hnot'⟩ := hl
  cases h with
  | @going _ E _ hopen hE hnot =>
    refine .going (E := E ++ E') hc (hclosed.trans hopen) ?_ ?_
    · rw [← List.append_assoc, ← hE]
      exact hE'
    · simp [hnot, hnot']
  | ended hc₀ => exact absurd hc₀ (by simp [hc])

theorem record [Extension ε] (h : b.Settles n c) (hc : c.closed = false) {e : Event}
    (he : e ≠ .close) (hgiven : e.delivered? = none) : b.Settles n (c.record e) :=
  have hserves : c.link.Serves none (c.link.record e) :=
    ⟨rfl, [e], Link.events_record c.link e, by simp [hgiven], by simp [he.symm]⟩
  h.serves hc hserves c.session

variable [Extension ε]

/-! ### Sends -/

theorem submit (h : b.Settles n c) (o : Outgoing) :
    b.Settles n { c with link := (c.link.submit o).1 } := by
  rcases hc : c.closed with - | -
  · exact h.serves hc (Link.sending_submit c.link o).serves c.session
  · have hl : c.link.closed := by
      cases h with
      | going hopen => exact absurd hc (by simp [hopen])
      | ended _ hl => exact hl
    rw [Link.submit_of_closed hl]
    exact h

/-! ### Reading -/

variable [Session σ]

theorem take (h : b.Settles n c) (hc : c.closed = false) (f : Frame) :
    b.Settles n (c.take f) := by
  obtain ⟨session, link, hserves, htake⟩ := exists_take_eq c f
  have hgiven := h.serves hc hserves session
  rw [htake]
  split
  · exact hgiven.shutdown hc
  · exact hgiven

theorem process (h : b.Settles n c) (input : Bytes) : b.Settles n (c.process input) := by
  induction c, input using process_induction with
  | closed c input hc =>
    rw [process_of_closed hc]
    exact h.of_events_eq rfl rfl rfl
  | wait c input hc hd =>
    rw [process_of_wait hc hd]
    exact h.of_events_eq rfl rfl rfl
  | error c input e hc hd =>
    have hread : b.Settles n
        { c with
          decoder := (c.decoder.decode input).decoder
          buffer := (c.decoder.decode input).rest.toArray } := h.of_events_eq rfl rfl rfl
    rw [process_of_error hc hd]
    exact hread.shutdown hc
  | frame c input f hc hd ih =>
    have hread : b.Settles n { c with decoder := (c.decoder.decode input).decoder } :=
      h.of_events_eq rfl rfl rfl
    rw [process_of_frame hc hd]
    exact ih (hread.take hc f)

theorem proceed (h : b.Settles n c) : b.Settles n c.proceed := by
  rw [proceed_eq_process]
  exact h.process _

omit [Session σ] in
theorem await (h : b.Settles n c) : b.Settles n c.await := by
  unfold Channel.await
  split
  · exact h
  · next hc => exact h.record (by simpa using hc) Event.noConfusion rfl

theorem readable (h : b.Settles n c) (input : List Inbound) :
    b.Settles n (c.readable input).1 := by
  have hfill {c : Channel σ ε} (h : b.Settles n c) (hc : c.closed = false) :
      b.Settles n (c.record .fill) := h.record hc Event.noConfusion rfl
  induction c, input using readable_induction with
  | closed c input hc =>
    rw [readable_of_closed hc]
    exact h
  | nil c hc =>
    rw [readable_nil hc]
    exact (hfill h hc).await
  | empty c input hc =>
    rw [readable_empty hc]
    exact (hfill h hc).await
  | data_nil c input hc =>
    rw [readable_data_nil hc]
    exact (hfill h hc).await
  | data c octets input hc hne ih =>
    have hread : b.Settles n { c.record .fill with buffer := c.buffer ++ octets } :=
      (hfill h hc).of_events_eq rfl rfl rfl
    rw [readable_data hc hne]
    exact ih hread.proceed
  | ended c input hc =>
    rw [readable_ended hc]
    exact (hfill h hc).shutdown hc
  | failed c message input hc =>
    rw [readable_failed hc]
    exact (hfill h hc).shutdown hc

end Settles

/-! ### The calls of the endpoint -/

variable [Extension ε] [Session σ]

theorem Settles.react {b c : Channel σ ε} {n : Nat} (h : b.Settles n c) (input : List Inbound)
    (cb : Callback) : b.Settles (n + (c.isLate cb).toNat) (c.react input cb).1 := by
  cases cb with
  | opened => exact h.proceed.await
  | readable => exact h.readable input
  | written failure =>
    rcases failure with - | message
    · exact h
    · show b.Settles (n + c.closed.toNat) c.shutdown
      rcases hc : c.closed with - | -
      · exact h.shutdown hc
      · exact h.late hc
  | aborted =>
    show b.Settles n c.aborted
    unfold aborted
    split
    · exact h
    · next hc => exact h.shutdown (by simpa using hc)

end Channel

end WebSocket
