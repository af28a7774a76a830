/-
WebSocket/Proofs/Channel/Refusal.lean

What a refused frame leaves behind.

A frame is refused because the link is closed or not connected, and then nothing happens
at all, or because an extension or the encoder refuses it.  Of what the extensions have seen
of it they may keep what they like, and its mask is used up; queue, log and flags are as
before, with one exception (`Occurs.send_refused`).  A close frame counts as sent before
the extensions see it.  If they refuse it, or if it cannot be written, no close frame was
sent, and yet nothing can be sent any more, and the close frame of the peer remains
unanswered (`closed_by_refused_close`).

These hold of all links that occur, also in the middle of a write (`Occurs`).
-/
import WebSocket.Extension.Marker
import WebSocket.Proofs.Channel.Reach
import WebSocket.Proofs.Channel.Sending

namespace WebSocket.Link

variable {ε : Type} [Extension ε]

/-! ### The links that occur -/

/-- The links that occur: without a channel at first, then with one, between the sends
and within them. -/
inductive Occurs : Link ε → Prop
  | fresh (log : List Event) (onWrite : List (List Outgoing)) (keys : Nat → UInt32) :
      Occurs { log, onWrite, keys }
  | connect {l : Link ε} (h : Occurs l) {σ : Type} (session : σ) (extensions : List ε) :
      Occurs (Channel.connect l session extensions).link
  | sending {l l' : Link ε} (h : Occurs l) (hs : l.Sending l') : Occurs l'
  | incoming {l : Link ε} (h : Occurs l) (f : Frame) : Occurs (l.incoming f).1
  | close {l : Link ε} (h : Occurs l) : Occurs { l with closed := true }
  | note {l : Link ε} (h : Occurs l) (e : Event) : Occurs (l.record e)

theorem Occurs.egress {l : Link ε} (h : l.Occurs) : l.egress = [] := by
  induction h with
  | fresh => rfl
  | connect _ _ _ ih => exact ih
  | sending _ hs ih => exact hs.egress ih
  | @incoming l _ f ih =>
    obtain ⟨_, heq, -⟩ := exists_incoming_eq l f
    rw [heq]
    exact ih
  | close _ ih => exact ih
  | note _ _ ih => exact ih

/-- Whatever a channel does to a link that occurs, the link that comes out occurs. -/
theorem Occurs.reaches {l l' : Link ε} (h : l.Occurs) (hl : l.Reaches l') : l'.Occurs := by
  induction hl with
  | refl => exact h
  | @send l' _ f ih => exact ih.sending (sending_send l' f)
  | incoming _ f ih => exact ih.incoming f
  | close _ ih => exact ih.close
  | @note l' _ e _ ih => exact ih.note e
  | @onWrite l' _ nested ih =>
    exact ih.sending (.queue .refl nested l'.pending l'.writing)

/-! ### Refused frames -/

theorem send_of_accept_error {l : Link ε} {f : Frame} {e : ChannelError}
    (h : (l.send f).2 = .error e) : l.accept f = ((l.send f).1, .error e) := by
  unfold send at h ⊢
  rcases ha : l.accept f with ⟨l', e' | ⟨⟩⟩
  · rw [ha] at h
    exact congrArg _ h
  · rw [ha] at h
    cases h

/-- Once a close frame counts as sent, every frame is refused, and nothing changes. -/
theorem accept_of_closeSent {l : Link ε} (h : l.closeSent) (f : Frame) :
    l.accept f = (l, .error .closed) := by
  simp [accept, prepare, h]

theorem send_of_closeSent {l : Link ε} (h : l.closeSent) (f : Frame) :
    l.send f = (l, .error .closed) := by
  rw [send, accept_of_closeSent h]

/-- It stays so, also within the writes that are still made. -/
theorem Sending.closeSent {l l' : Link ε} (hl : l.Sending l') (he : l.egress = [])
    (h : l.closeSent) : l'.closeSent := by
  induction hl with
  | refl => exact h
  | @accept l' hl f ih =>
    have hf := accepts_accept (hl.egress he) f
    generalize l'.accept f = r at hf
    cases hf with
    | closed | notConnected => exact ih
    | refused hopen | accepted hopen => simp [ih] at hopen
  | note _ _ ih => exact ih
  | queue _ _ _ _ ih => exact ih

/-- Then a close frame of the peer has no answer. -/
theorem respond_of_closeSent {σ : Type} {c : Channel σ ε} (h : c.link.closeSent) {f : Frame}
    (hf : f.opcode = .close) : c.respond f = c.shutdown := by
  simp [Channel.respond, hf, h]

/-- **A refused frame leaves the link as it was, unless it is a close frame.**  Apart from
the extensions and the mask, at most `closeSent` changes, and nothing at all if the link was
closed or not connected.

If an extension or the encoder refuses a close frame, the link was open and is not so any
more: whatever is sent later is refused, and the peer's close frame is not answered. -/
theorem Occurs.send_refused {l : Link ε} (hl : l.Occurs) {f : Frame} {e : ChannelError}
    (h : (l.send f).2 = .error e) :
    (∃ (chain : Option (Pipeline ε)) (drawn : Nat),
      (l.send f).1 = { l with
          chain, drawn, closeSent := l.closeSent || (f.opcode = .close && e.ofFrame) }
      ∧ chain.isSome = l.chain.isSome)
    ∧ (e.ofFrame = false → (l.send f).1 = l)
    ∧ (¬(f.opcode = .close ∧ e.ofFrame) → (l.send f).1.isOpen = l.isOpen)
    ∧ (f.opcode = .close → e.ofFrame →
        l.isOpen ∧ (l.send f).1.isOpen = false
        ∧ (∀ l', (l.send f).1.Sending l' → ∀ g, l'.send g = (l', .error .closed))
        ∧ ∀ (σ : Type) (c : Channel σ ε) (g : Frame), c.link = (l.send f).1 →
            g.opcode = .close → c.respond g = c.shutdown) := by
  have hf := accepts_accept hl.egress f
  rw [send_of_accept_error h] at hf
  generalize hl' : (l.send f).1 = l' at hf ⊢
  cases hf with
  | closed hclosed =>
    exact ⟨⟨l.chain, l.drawn, by simp [ChannelError.ofFrame], rfl⟩, fun _ => rfl, fun _ => rfl,
      fun _ he => by cases he⟩
  | notConnected hopen hc =>
    exact ⟨⟨l.chain, l.drawn, by simp [ChannelError.ofFrame], rfl⟩, fun _ => rfl, fun _ => rfl,
      fun _ he => by cases he⟩
  | @refused p p' _ hopen hc he =>
    have hnot : l.closed = false ∧ l.closeSent = false := by simpa using hopen
    refine ⟨⟨some p', l.drawn + 1, by simp [hnot.2, he], by rw [hc]; rfl⟩,
      fun hne => absurd he (by simp [hne]), fun hkind => ?_, fun hclose _ => ?_⟩
    · have hkind : f.opcode ≠ .close := fun hclose => hkind ⟨hclose, he⟩
      simp [isOpen, hc, hnot, hkind]
    · refine ⟨by simp [isOpen, hc, hnot], by simp [isOpen, hclose], ?_, ?_⟩
      · intro l' hsending g
        exact send_of_closeSent (hsending.closeSent hl.egress (by simpa using hclose)) g
      · intro σ c g hc hg
        exact respond_of_closeSent (by simpa [hc] using hclose) hg

/-- **A refused close frame closes the link all the same.**  An extension refuses the first
frame that is sent, which is a close frame.  Nothing is written, but the link is not open any
more, a message is refused, and when the peer closes, the endpoint is closed without an
answer. -/
theorem closed_by_refused_close :
    let channel : Channel Script Extension.Marker := Channel.connect { keys := fun _ => 0 }
      {} [{ label := "mark", failEncode := some 0 }]
    let l := channel.link
    let behind := (l.send (.single .close [])).1
    l.Occurs ∧ l.isOpen
      ∧ (l.send (.single .close [])).2 = .error (.extension (.custom "cannot encode"))
      ∧ l.closeSent = false ∧ behind.closeSent ∧ behind.isOpen = false ∧ behind.events = []
      ∧ (behind.send (.single .text [104, 105])).2 = .error .closed
      ∧ ({ channel with link := behind }.respond (.single .close [3, 232])).link.events
        = [.close] := by
  intro channel l behind
  have hl : l.Occurs := .connect (.fresh [] [] fun _ => 0) ({} : Script) _
  refine ⟨hl, rfl, rfl, rfl, rfl, rfl, rfl, rfl, rfl⟩

/-- The general statement for a message that the same extension refuses. -/
theorem send_refused_of_message :
    let l : Link Extension.Marker := (Channel.connect { keys := fun _ => 0 } ()
      [({ label := "mark", failEncode := some 0 } : Extension.Marker)]).link
    let e : ChannelError := .extension (.custom "cannot encode")
    l.Occurs ∧ (l.send (.single .text [104, 105])).2 = .error e
      ∧ (l.send (.single .text [104, 105])).1.isOpen = l.isOpen := by
  intro l e
  have hl : l.Occurs := .connect (.fresh [] [] fun _ => 0) () _
  have he : (l.send (.single .text [104, 105])).2 = .error e := rfl
  obtain ⟨-, -, hopen, -⟩ := hl.send_refused he
  exact ⟨hl, he, hopen (by simp [Frame.single])⟩

end WebSocket.Link
