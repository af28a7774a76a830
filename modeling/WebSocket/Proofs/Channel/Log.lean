/-
WebSocket/Proofs/Channel/Log.lean

What a channel adds to the log.

The log only grows, and a channel never does what belongs to a handshake: it neither
reports an outcome nor puts another handler in its place, and it does not end what the
endpoint sends without closing it.  `Grows` says this of one step.  It holds of all that a
channel does to its link (`Reaches.grows`), and so of each call of the endpoint
(`grows_react`); the request, which is no business of a channel, only adds to the log as
well (`grows_transmit`).
-/
import WebSocket.Proofs.Channel.Reach
import WebSocket.Proofs.Channel.Sending

namespace WebSocket

/-- What a channel has its endpoint do, and what it notes for itself. -/
def Event.ofChannel : Event → Bool
  | shutdownOutput | replaceHandler | upgraded _ | failed _ => false
  | _ => true

theorem Event.ofChannel_of_isTraffic {e : Event} (h : e.isTraffic) : e.ofChannel := by
  cases e <;> first | rfl | cases h

theorem Event.ofChannel_of_isNote {e : Event} (h : e.isNote) : e.ofChannel := by
  cases e <;> first | rfl | cases h

namespace Link

variable {ε α : Type}

/-- The log of `l'` is that of `l` and what a channel has added to it. -/
def Grows (l l' : Link ε) : Prop :=
  ∃ E : List Event, l'.log = E ++ l.log ∧ ∀ e ∈ E, e.ofChannel

namespace Grows

theorem of_log_eq {l l' : Link ε} (h : l'.log = l.log) : l.Grows l' :=
  ⟨[], h, by simp⟩

theorem refl (l : Link ε) : l.Grows l :=
  of_log_eq rfl

theorem trans {l l' l'' : Link ε} (h : l.Grows l') (h' : l'.Grows l'') : l.Grows l'' := by
  obtain ⟨E, hE, hall⟩ := h
  obtain ⟨E', hE', hall'⟩ := h'
  refine ⟨E' ++ E, by rw [hE', hE, List.append_assoc], fun e he => ?_⟩
  rcases List.mem_append.1 he with he | he
  · exact hall' e he
  · exact hall e he

theorem record (l : Link ε) {e : Event} (he : e.ofChannel) : l.Grows (Link.record l e) :=
  ⟨[e], rfl, by simpa using he⟩

theorem foldl {step : Link ε → α → Link ε} (hstep : ∀ l a, Grows l (step l a)) (l : Link ε)
    (as : List α) : l.Grows (as.foldl step l) := by
  induction as generalizing l with
  | nil => exact refl l
  | cons a as ih => exact (hstep l a).trans (ih (step l a))

end Grows

/-! ### The sending half -/

variable [Extension ε]

theorem log_incoming (l : Link ε) (f : Frame) : (l.incoming f).1.log = l.log := by
  obtain ⟨_, heq, -⟩ := exists_incoming_eq l f
  rw [heq]

/-- Whatever is sent, it adds to the log. -/
theorem Sending.grows {l l' : Link ε} (h : l.Sending l') : l.Grows l' := by
  obtain ⟨E, hE, hall⟩ := h.events
  refine ⟨E.reverse, ?_, ?_⟩
  · apply List.reverse_inj.1
    rw [List.reverse_append, List.reverse_reverse]
    exact hE
  · intro e he
    exact Event.ofChannel_of_isTraffic (hall e (List.mem_reverse.1 he))

theorem grows_submit (l : Link ε) (o : Outgoing) : l.Grows (l.submit o).1 :=
  (sending_submit l o).grows

theorem grows_submitNested (l : Link ε) (o : Outgoing) : l.Grows (l.submitNested o) :=
  (grows_submit l o).trans (.record _ rfl)

theorem grows_transmit (l : Link ε) (octets : Bytes) : l.Grows (l.transmit octets) := by
  unfold transmit
  split
  · exact .record l rfl
  · next sends onWrite _ =>
    have htaken : l.Grows { l with onWrite } := .of_log_eq rfl
    exact htaken.trans ((Grows.foldl grows_submitNested _ sends).trans (.record _ rfl))

/-- All that a channel does to its link adds to the log. -/
theorem Reaches.grows {l l' : Link ε} (h : l.Reaches l') : l.Grows l' := by
  induction h with
  | refl => exact .refl l
  | @send l' _ f ih => exact ih.trans (sending_send l' f).grows
  | @incoming l' _ f ih => exact ih.trans (.of_log_eq (log_incoming l' f))
  | close _ ih => exact ih.trans (.of_log_eq rfl)
  | @note l' _ e he ih => exact ih.trans (.record l' (Event.ofChannel_of_isNote he))
  | onWrite _ nested ih => exact ih.trans (.of_log_eq rfl)

end Link

/-- No call of the endpoint makes a channel do what belongs to a handshake. -/
theorem Channel.grows_react {σ ε : Type} [Extension ε] [Session σ] (c : Channel σ ε)
    (input : List Inbound) (cb : Callback) : c.link.Grows (c.react input cb).1.link :=
  (reaches_react c input cb).grows

end WebSocket
