/-
WebSocket/Proofs/Channel/Encounter.lean

What becomes of a frame that a channel reads.

Design.  An `Encounter` is a frame that is read, with the application and the link that it
finds, as the extensions may have changed since the last frame.  Its `fate` is what becomes
of it: an extension refuses it, or the application is given what comes out of the
extensions, and then either the channel goes on or this was the last frame, for one of three
reasons.

`exists_take_eq` is the one place where `take` is opened: apart from the application it
changes only the link, the log shows the delivery that the fate says, and the endpoint is
closed exactly if the frame is the last.
-/
import WebSocket.Proofs.Channel.Log
import WebSocket.Proofs.Channel.Sending

namespace WebSocket

/-- The frame that the application is given. -/
def Event.delivered? : Event → Option Frame
  | deliver f => some f
  | _ => none

theorem Event.not_delivered_of_isTraffic {e : Event} (h : e.isTraffic) :
    e.delivered? = none ∧ e ≠ .close := by
  cases e <;> first | exact ⟨rfl, Event.noConfusion⟩ | cases h

/-! ### The fate of a frame -/

/-- What becomes of a frame that is read. -/
inductive Fate where
  /-- An extension refuses it, and the application is not given it. -/
  | lost (cause : ExtensionError)
  /-- The application is given it, and refuses it. -/
  | refused (f : Frame)
  /-- The application is given a close frame. -/
  | closing (f : Frame)
  /-- The application is given a ping, which cannot be answered. -/
  | unanswered (ping : Frame) (cause : ChannelError)
  /-- The application is given it, and the channel goes on. -/
  | taken (f : Frame)
  deriving DecidableEq, Repr

namespace Fate

/-- The frame that the application is given. -/
def delivered? : Fate → Option Frame
  | lost _ => none
  | refused f | closing f | unanswered f _ | taken f => some f

/-- No frame is read behind this one. -/
def isLast : Fate → Bool
  | taken _ => false
  | _ => true

end Fate

/-- A frame that is read, with the application and the link that it finds. -/
structure Encounter (σ ε : Type) where
  session : σ
  link : Link ε
  frame : Frame

namespace Encounter

variable {σ ε : Type} [Extension ε] [Session σ]

/-- What the application does with what comes out of the extensions. -/
def reaction (m : Encounter σ ε) (g : Frame) : Reaction :=
  (Session.receive m.session g).2

/-- The link when the application was given a frame and has sent what it wants to. -/
def linkBehind (m : Encounter σ ε) (g : Frame) : Link ε :=
  (m.reaction g).sends.foldl Channel.reply ((m.link.incoming m.frame).1.record (.deliver g))

/-- What becomes of the frame.  A pong that is refused because a close frame was sent before
does no harm. -/
def fate (m : Encounter σ ε) : Fate :=
  match (m.link.incoming m.frame).2 with
  | .error e => .lost e
  | .ok g =>
    if (m.reaction g).refused then .refused g
    else match g.opcode with
      | .close => .closing g
      | .ping =>
        match ((m.linkBehind g).send (.single .pong g.payload)).2 with
        | .ok () | .error .closed => .taken g
        | .error e => .unanswered g e
      | _ => .taken g

/-- What must be the case for a fate. -/
inductive Outcome (m : Encounter σ ε) : Fate → Prop
  | lost {e : ExtensionError} (hin : (m.link.incoming m.frame).2 = .error e) : Outcome m (.lost e)
  | refused {g : Frame} (hin : (m.link.incoming m.frame).2 = .ok g)
      (href : (m.reaction g).refused = true) : Outcome m (.refused g)
  | closing {g : Frame} (hin : (m.link.incoming m.frame).2 = .ok g)
      (href : (m.reaction g).refused = false) (hclose : g.opcode = .close) :
      Outcome m (.closing g)
  | unanswered {g : Frame} {e : ChannelError} (hin : (m.link.incoming m.frame).2 = .ok g)
      (href : (m.reaction g).refused = false) (hping : g.opcode = .ping)
      (hsend : ((m.linkBehind g).send (.single .pong g.payload)).2 = .error e)
      (he : e ≠ .closed) : Outcome m (.unanswered g e)
  | answered {g : Frame} (hin : (m.link.incoming m.frame).2 = .ok g)
      (href : (m.reaction g).refused = false) (hping : g.opcode = .ping)
      (hsend : ((m.linkBehind g).send (.single .pong g.payload)).2 = .ok ()
        ∨ ((m.linkBehind g).send (.single .pong g.payload)).2 = .error .closed) :
      Outcome m (.taken g)
  | taken {g : Frame} (hin : (m.link.incoming m.frame).2 = .ok g)
      (href : (m.reaction g).refused = false) (hclose : g.opcode ≠ .close)
      (hping : g.opcode ≠ .ping) : Outcome m (.taken g)

theorem outcome_fate (m : Encounter σ ε) : m.Outcome m.fate := by
  unfold fate
  rcases hin : (m.link.incoming m.frame).2 with e | g
  · exact .lost hin
  dsimp only
  split
  · next href => exact .refused hin href
  · next href =>
    have hnot : (m.reaction g).refused = false := by simpa using href
    split
    · next hclose => exact .closing hin hnot hclose
    · next hping =>
      split
      · next hsend => exact .answered hin hnot hping (.inl hsend)
      · next hsend => exact .answered hin hnot hping (.inr hsend)
      · next e he hsend => exact .unanswered hin hnot hping hsend he
    · next hclose hping => exact .taken hin hnot hclose hping

/-- The application is given what comes out of the extensions, whatever becomes of it. -/
theorem delivered_fate (m : Encounter σ ε) :
    m.fate.delivered? = (m.link.incoming m.frame).2.toOption := by
  have h := m.outcome_fate
  generalize m.fate = fate at h
  cases h with
  | lost hin => rw [hin]; rfl
  | refused hin | closing hin | unanswered hin | answered hin | taken hin => rw [hin]; rfl

/-- No frame is read behind a close frame that the application was given. -/
theorem isLast_of_close {m : Encounter σ ε} {g : Frame} (h : m.fate.delivered? = some g)
    (hclose : g.opcode = .close) : m.fate.isLast := by
  have hm := m.outcome_fate
  generalize m.fate = fate at h hm
  cases hm with
  | lost | refused | closing | unanswered => rfl
  | answered _ _ hping =>
    rw [Option.some.inj h, hclose] at hping
    cases hping
  | taken _ _ hne =>
    rw [Option.some.inj h] at hne
    exact absurd hclose hne

end Encounter

/-! ### Dealing with a frame -/

namespace Link

/-- The link when a close frame was answered, unless one was sent before. -/
def answerClose {ε : Type} [Extension ε] (l : Link ε) (payload : Bytes) : Link ε :=
  if l.closeSent then l else (l.send (.single .close (Close.answer payload))).1

variable {ε : Type}

/-- While `l` becomes `l'` this is given to the application, if anything, and the link is
not closed. -/
structure Serves (l : Link ε) (given : Option Frame) (l' : Link ε) : Prop where
  closed : l'.closed = l.closed
  events : ∃ E : List Event, l'.events = l.events ++ E
    ∧ E.filterMap Event.delivered? = given.toList ∧ .close ∉ E

variable [Extension ε]

theorem serves_incoming (l : Link ε) (f : Frame) : l.Serves none (l.incoming f).1 := by
  obtain ⟨chain, heq, -⟩ := exists_incoming_eq l f
  rw [heq]
  exact ⟨rfl, [], (List.append_nil _).symm, rfl, List.not_mem_nil⟩

theorem sending_answerClose (l : Link ε) (payload : Bytes) :
    l.Sending (l.answerClose payload) := by
  unfold answerClose
  split
  · exact .refl
  · exact sending_send l _

theorem reaches_answerClose (l : Link ε) (payload : Bytes) :
    l.Reaches (l.answerClose payload) := by
  unfold answerClose
  split
  · exact .refl
  · exact .send .refl _

theorem Sending.serves {l l' : Link ε} (h : l.Sending l') : l.Serves none l' := by
  obtain ⟨E, hE, hall⟩ := h.events
  refine ⟨h.settings.1, E, hE, ?_, ?_⟩
  · exact List.filterMap_eq_nil_iff.2 fun e he => (Event.not_delivered_of_isTraffic (hall e he)).1
  · exact fun hclose => (Event.not_delivered_of_isTraffic (hall _ hclose)).2 rfl

omit [Extension ε] in
theorem serves_deliver (l : Link ε) (g : Frame) : l.Serves (some g) (l.record (.deliver g)) :=
  ⟨rfl, [.deliver g], by simp, rfl, by simp⟩

omit [Extension ε] in
theorem Serves.trans {l l' l'' : Link ε} {given given' : Option Frame} (h : l.Serves given l')
    (h' : l'.Serves given' l'') (hnone : given = none ∨ given' = none) :
    l.Serves (given.or given') l'' := by
  obtain ⟨hclosed, E, hE, hgiven, hclose⟩ := h
  obtain ⟨hclosed', E', hE', hgiven', hclose'⟩ := h'
  refine ⟨hclosed'.trans hclosed, E ++ E', by rw [hE', hE, List.append_assoc], ?_, ?_⟩
  · rw [List.filterMap_append, hgiven, hgiven']
    rcases hnone with rfl | rfl <;> simp
  · simp [hclose, hclose']

end Link

namespace Channel

variable {σ ε : Type} [Extension ε]

/-- The frame, and what it finds. -/
def encounter (c : Channel σ ε) (f : Frame) : Encounter σ ε :=
  ⟨c.session, c.link, f⟩

variable [Session σ]

theorem sending_linkBehind (c : Channel σ ε) (f g : Frame) :
    ((c.link.incoming f).1.record (.deliver g)).Sending ((c.encounter f).linkBehind g) :=
  Link.Sending.foldl Link.sending_reply _ _

theorem reaches_linkBehind (c : Channel σ ε) (f g : Frame) :
    c.link.Reaches ((c.encounter f).linkBehind g) :=
  .foldl reaches_reply (.note (.incoming .refl f) rfl) _

/-- What the application is given, and all that is sent for it. -/
theorem serves_of_sending {c : Channel σ ε} {f g : Frame} {l : Link ε}
    (h : ((c.encounter f).linkBehind g).Sending l) : c.link.Serves (some g) l := by
  have hin := Link.serves_incoming c.link f
  have hdeliver := Link.serves_deliver (c.link.incoming f).1 g
  have hsent := ((sending_linkBehind c f g).trans h).serves
  exact hin.trans (hdeliver.trans hsent (.inr rfl)) (.inl rfl)

/-! The answers that a channel gives by itself. -/

section

variable {c : Channel σ ε} {g : Frame}

omit [Session σ]

theorem respond_of_close (hclose : g.opcode = .close) :
    c.respond g = ({ c with link := c.link.answerClose g.payload } : Channel σ ε).shutdown := by
  simp only [respond, hclose]
  rfl

theorem respond_of_pong_sent (hping : g.opcode = .ping)
    (hsend : (c.link.send (.single .pong g.payload)).2 = .ok ()) :
    c.respond g = { c with link := (c.link.send (.single .pong g.payload)).1 } := by
  simp only [respond, hping, hsend]

theorem respond_of_pong_error (hping : g.opcode = .ping) {e : ChannelError}
    (hsend : (c.link.send (.single .pong g.payload)).2 = .error e) :
    c.respond g =
      if e = .closed then { c with link := (c.link.send (.single .pong g.payload)).1 }
      else ({ c with
        link := (c.link.send (.single .pong g.payload)).1 } : Channel σ ε).shutdown := by
  simp only [respond, hping, hsend]
  cases e <;> rfl

theorem respond_of_other (hclose : g.opcode ≠ .close) (hping : g.opcode ≠ .ping) :
    c.respond g = c := by
  unfold respond
  split
  · next h => exact absurd h hping
  · next h => exact absurd h hclose
  · rfl

end

section

variable {c : Channel σ ε} {f g : Frame}
  (hin : ((c.encounter f).link.incoming (c.encounter f).frame).2 = .ok g)
include hin

theorem take_eq_deliver :
    c.take f = ({ c with link := (c.link.incoming f).1 } : Channel σ ε).deliver g := by
  rw [take]
  simp only [show (c.link.incoming f).2 = .ok g from hin]

theorem take_of_refused (href : ((c.encounter f).reaction g).refused = true) :
    c.take f = ({ c with
        session := (Session.receive c.session g).1
        link := (c.encounter f).linkBehind g } : Channel σ ε).shutdown := by
  rw [take_eq_deliver hin]
  exact if_pos href

theorem take_of_not_refused (href : ((c.encounter f).reaction g).refused = false) :
    c.take f = ({ c with
        session := (Session.receive c.session g).1
        link := (c.encounter f).linkBehind g } : Channel σ ε).respond g := by
  rw [take_eq_deliver hin]
  exact if_neg (Bool.eq_false_iff.1 href)

/-- A close frame is answered, unless one was sent before, and the endpoint is closed. -/
theorem take_of_close (href : ((c.encounter f).reaction g).refused = false)
    (hclose : g.opcode = .close) :
    c.take f = ({ c with
        session := (Session.receive c.session g).1
        link := ((c.encounter f).linkBehind g).answerClose g.payload } : Channel σ ε).shutdown := by
  rw [take_of_not_refused hin href, respond_of_close hclose]

end

/-- What a channel does with a frame: the application and the link change, the log shows the
delivery, and if the frame is the last, then the endpoint is closed. -/
theorem exists_take_eq (c : Channel σ ε) (f : Frame) :
    ∃ (session : σ) (link : Link ε),
      c.link.Serves (c.encounter f).fate.delivered? link
      ∧ c.take f = if (c.encounter f).fate.isLast
          then ({ c with session, link } : Channel σ ε).shutdown else { c with session, link } := by
  have hm := (c.encounter f).outcome_fate
  generalize (c.encounter f).fate = fate at hm
  cases hm with
  | lost hin =>
    refine ⟨c.session, (c.link.incoming f).1, Link.serves_incoming c.link f, ?_⟩
    rw [take]
    simp only [show (c.link.incoming f).2 = _ from hin]
    rfl
  | refused hin href =>
    rw [take_of_refused hin href]
    exact ⟨_, _, serves_of_sending .refl, rfl⟩
  | @closing g hin href hclose =>
    rw [take_of_close hin href hclose]
    exact ⟨_, _, serves_of_sending (Link.sending_answerClose _ g.payload), rfl⟩
  | unanswered hin href hping hsend he =>
    rw [take_of_not_refused hin href, respond_of_pong_error hping hsend, if_neg he]
    exact ⟨_, _, serves_of_sending (Link.sending_send _ _), rfl⟩
  | answered hin href hping hsend =>
    rw [take_of_not_refused hin href]
    rcases hsend with hsend | hsend
    · rw [respond_of_pong_sent hping hsend]
      exact ⟨_, _, serves_of_sending (Link.sending_send _ _), rfl⟩
    · rw [respond_of_pong_error hping hsend, if_pos rfl]
      exact ⟨_, _, serves_of_sending (Link.sending_send _ _), rfl⟩
  | taken hin href hclose hping =>
    rw [take_of_not_refused hin href, respond_of_other hclose hping]
    exact ⟨_, _, serves_of_sending .refl, rfl⟩

end Channel

end WebSocket
