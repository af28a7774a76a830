/-
WebSocket/Proofs/Channel/Reach.lean

What a channel does to its link.

Design.  Whatever a channel and its application do, to the link it is one of few things: a
frame is sent or taken in, the link is closed, or something is noted.  `Link.Reaches` is
any number of these, one after the other, with whatever is sent from within the writes.
There is one lemma for each function of a channel, up to a call of the endpoint
(`reaches_react`), so what holds of these few things holds of channels.
-/
import WebSocket.Proofs.Channel.Process

namespace WebSocket

/-- What a channel notes besides the frames that it sends. -/
def Event.isNote : Event → Bool
  | fill | fillInterested | close | deliver _ | reply _ => true
  | _ => false

namespace Link

variable {ε α : Type} [Extension ε]

/-- A channel can bring about `l'` where it finds `l`. -/
inductive Reaches (l : Link ε) : Link ε → Prop
  | refl : Reaches l l
  | send {l' : Link ε} (h : Reaches l l') (f : Frame) : Reaches l (l'.send f).1
  | incoming {l' : Link ε} (h : Reaches l l') (f : Frame) : Reaches l (l'.incoming f).1
  | close {l' : Link ε} (h : Reaches l l') : Reaches l { l' with closed := true }
  | note {l' : Link ε} (h : Reaches l l') {e : Event} (he : e.isNote) : Reaches l (l'.record e)
  /-- It is settled what is sent from within the coming writes. -/
  | onWrite {l' : Link ε} (h : Reaches l l') (nested : List (List Outgoing)) :
      Reaches l { l' with onWrite := nested }

namespace Reaches

theorem trans {l l' l'' : Link ε} (h : l.Reaches l') (h' : l'.Reaches l'') : l.Reaches l'' := by
  induction h' with
  | refl => exact h
  | send _ f ih => exact ih.send f
  | incoming _ f ih => exact ih.incoming f
  | close _ ih => exact ih.close
  | note _ he ih => exact ih.note he
  | onWrite _ nested ih => exact ih.onWrite nested

theorem submit {l l' : Link ε} (h : l.Reaches l') (o : Outgoing) :
    l.Reaches (l'.submit o).1 := by
  unfold Link.submit
  split
  · exact h
  · next f _ => exact h.send f

theorem foldl {step : Link ε → α → Link ε} (hstep : ∀ l a, Reaches l (step l a)) {l l' : Link ε}
    (h : l.Reaches l') (as : List α) : l.Reaches (as.foldl step l') := by
  induction as generalizing l' with
  | nil => exact h
  | cons a as ih => exact ih (h.trans (hstep l' a))

end Reaches

end Link

namespace Channel

open Link

variable {σ ε : Type} [Extension ε]

theorem reaches_shutdown (c : Channel σ ε) : c.link.Reaches c.shutdown.link :=
  .note (.close .refl) rfl

theorem reaches_respond (c : Channel σ ε) (f : Frame) : c.link.Reaches (c.respond f).link := by
  unfold respond
  split
  · have hsend : c.link.Reaches (c.link.send (.single .pong f.payload)).1 := .send .refl _
    dsimp only
    split
    · exact hsend
    · exact hsend
    · exact hsend.trans (reaches_shutdown { c with link := _ })
  · dsimp only
    split
    · exact reaches_shutdown c
    · exact (Reaches.send .refl _).trans (reaches_shutdown { c with link := _ })
  · exact .refl

theorem reaches_reply (l : Link ε) (o : Outgoing) : l.Reaches (reply l o) :=
  .note (.submit .refl o) rfl

variable [Session σ]

theorem reaches_deliver (c : Channel σ ε) (f : Frame) : c.link.Reaches (c.deliver f).link := by
  have hsends : c.link.Reaches
      ((Session.receive c.session f).2.sends.foldl reply (c.link.record (.deliver f))) :=
    .foldl reaches_reply (.note .refl rfl) _
  unfold deliver
  dsimp only
  split
  · exact hsends.trans (reaches_shutdown { c with session := _, link := _ })
  · exact hsends.trans (reaches_respond { c with session := _, link := _ } f)

theorem reaches_take (c : Channel σ ε) (f : Frame) : c.link.Reaches (c.take f).link := by
  have hin : c.link.Reaches (c.link.incoming f).1 := .incoming .refl f
  unfold take
  dsimp only
  split
  · next g _ => exact hin.trans (reaches_deliver { c with link := _ } g)
  · exact hin.trans (reaches_shutdown { c with link := _ })

theorem reaches_process (c : Channel σ ε) (input : Bytes) :
    c.link.Reaches (c.process input).link := by
  induction c, input using process_induction with
  | closed c input hc =>
    rw [process_of_closed hc]
    exact .refl
  | wait c input hc h =>
    rw [process_of_wait hc h]
    exact .refl
  | error c input e hc h =>
    rw [process_of_error hc h]
    exact reaches_shutdown { c with decoder := _, buffer := _ }
  | frame c input f hc h ih =>
    rw [process_of_frame hc h]
    exact (reaches_take { c with decoder := (c.decoder.decode input).decoder } f).trans ih

theorem reaches_proceed (c : Channel σ ε) : c.link.Reaches c.proceed.link := by
  rw [proceed_eq_process]
  exact reaches_process c _

omit [Session σ] in
theorem reaches_await (c : Channel σ ε) : c.link.Reaches c.await.link := by
  unfold await
  split
  · exact .refl
  · exact .note .refl rfl

theorem reaches_readable (c : Channel σ ε) (input : List Inbound) :
    c.link.Reaches (c.readable input).1.link := by
  have hfill (c : Channel σ ε) : c.link.Reaches (c.record .fill).link := .note .refl rfl
  induction c, input using readable_induction with
  | closed c input hc =>
    rw [readable_of_closed hc]
    exact .refl
  | nil c hc =>
    rw [readable_nil hc]
    exact (hfill c).trans (reaches_await _)
  | empty c input hc =>
    rw [readable_empty hc]
    exact (hfill c).trans (reaches_await _)
  | data_nil c input hc =>
    rw [readable_data_nil hc]
    exact (hfill c).trans (reaches_await _)
  | data c octets input hc hne ih =>
    have hproceed := reaches_proceed { c.record .fill with buffer := c.buffer ++ octets }
    rw [readable_data hc hne]
    exact (hfill c).trans (hproceed.trans ih)
  | ended c input hc =>
    rw [readable_ended hc]
    exact (hfill c).trans (reaches_shutdown _)
  | failed c message input hc =>
    rw [readable_failed hc]
    exact (hfill c).trans (reaches_shutdown _)

/-- Whatever the endpoint calls a channel for, to the link it is nothing but these. -/
theorem reaches_react (c : Channel σ ε) (input : List Inbound) (cb : Callback) :
    c.link.Reaches (c.react input cb).1.link := by
  cases cb with
  | opened => exact (reaches_proceed c).trans (reaches_await _)
  | readable => exact reaches_readable c input
  | written failure =>
    unfold react written
    dsimp only
    split
    · exact reaches_shutdown c
    · exact .refl
  | aborted =>
    unfold react aborted
    dsimp only
    split
    · exact .refl
    · exact reaches_shutdown c

end Channel

end WebSocket
