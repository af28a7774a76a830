/-
WebSocket/Proofs/Channel/Sending.lean

What becomes of a link by sending, at any moment.

Design.  `Reaches` leads from one send from outside to the next, and says nothing of the
moments in between, when what is sent from within a write is accepted or refused.
`Sending` takes sends apart: a frame is accepted or refused, something is noted, or the
queue changes.  So it passes through these moments as well, and what each of these steps
preserves holds at all of them.

What `accept` can do is said once (`Accepts`): the link is closed or not connected and
stays as it is, or the frame goes into the extensions.  Then it draws a mask, and it is
either accepted in its written form or refused, by an extension or when it is to be written.
-/
import WebSocket.Proofs.Channel.Prepare
import WebSocket.Channel.Connection

namespace WebSocket

/-- What is noted of sending besides the frames that are accepted. -/
def Event.isSendNote : Event → Bool
  | write _ | nested _ | reply _ => true
  | _ => false

/-- What is noted of sending. -/
def Event.isTraffic : Event → Bool
  | accept .. => true
  | e => e.isSendNote

theorem Event.isTraffic_of_isSendNote {e : Event} (h : e.isSendNote) : e.isTraffic := by
  cases e <;> first | exact h | cases h

/-- It is the frame that is refused, by an extension or when it is to be written. -/
def ChannelError.ofFrame : ChannelError → Bool
  | extension _ | codec _ => true
  | io _ | notConnected | closed => false

namespace Link

variable {ε α : Type} [Extension ε]

/-! ### One frame -/

/-- Whatever is behind the extensions, `accept` notes nothing but the accepted frame, and
it neither closes the link nor takes the extensions away. -/
theorem exists_accept_eq (l : Link ε) (f : Frame) :
    ∃ chain closeSent drawn egress pending log,
      (l.accept f).1 = { l with chain, closeSent, drawn, egress, pending, log }
      ∧ chain.isSome = l.chain.isSome
      ∧ (log = l.log ∨ ∃ octets, log = .accept f octets :: l.log) := by
  have hprepare : ∃ chain closeSent drawn egress,
      (l.prepare f).1 = { l with chain, closeSent, drawn, egress }
      ∧ chain.isSome = l.chain.isSome := by
    unfold prepare
    split
    · exact ⟨l.chain, l.closeSent, l.drawn, l.egress, rfl, rfl⟩
    · rcases hc : l.chain with - | p
      · exact ⟨l.chain, l.closeSent, l.drawn, l.egress, rfl, by rw [hc]⟩
      · dsimp only
        split
        · exact ⟨_, _, _, l.egress, rfl, rfl⟩
        · split
          · exact ⟨_, _, _, _, rfl, rfl⟩
          · exact ⟨_, _, _, _, rfl, rfl⟩
  obtain ⟨chain, closeSent, drawn, egress, heq, hchain⟩ := hprepare
  unfold accept
  rcases h : l.prepare f with ⟨l', e | octets⟩
  · rw [h] at heq
    exact ⟨chain, closeSent, drawn, egress, l.pending, l.log, heq, hchain, .inl rfl⟩
  · rw [h] at heq
    dsimp only at heq ⊢
    rw [heq]
    exact ⟨chain, closeSent, drawn, egress, _, _, rfl, hchain, .inr ⟨octets, rfl⟩⟩

/-- A frame on its way in changes nothing but the extensions. -/
theorem exists_incoming_eq (l : Link ε) (f : Frame) :
    ∃ chain, (l.incoming f).1 = { l with chain } ∧ chain.isSome = l.chain.isSome := by
  unfold incoming
  split
  · exact ⟨l.chain, rfl, rfl⟩
  · next hc => exact ⟨_, rfl, by rw [hc]; rfl⟩

/-- What `accept` can make of a link and a frame. -/
inductive Accepts (l : Link ε) (f : Frame) : Link ε × Except ChannelError Unit → Prop
  | closed (h : (l.closed || l.closeSent) = true) : Accepts l f (l, .error .closed)
  | notConnected (h : (l.closed || l.closeSent) = false) (hc : l.chain = none) :
      Accepts l f (l, .error .notConnected)
  | refused {p p' : Pipeline ε} {e : ChannelError} (h : (l.closed || l.closeSent) = false)
      (hc : l.chain = some p) (he : e.ofFrame) :
      Accepts l f
        ({ l with chain := some p', closeSent := f.opcode = .close, drawn := l.drawn + 1 },
          .error e)
  | accepted {p p' : Pipeline ε} {g : Frame} {octets : Bytes}
      (h : (l.closed || l.closeSent) = false) (hc : l.chain = some p)
      (hp : p.outgoing { f with masked := true, mask := l.keys l.drawn } = (p', .ok g))
      (hg : g.encode l.inUse = .ok octets) :
      Accepts l f
        ({ l with
            chain := some p', closeSent := f.opcode = .close, drawn := l.drawn + 1
            log := .accept f octets :: l.log, pending := l.pending ++ [octets] }, .ok ())

theorem accepts_accept {l : Link ε} (he : l.egress = []) (f : Frame) :
    l.Accepts f (l.accept f) := by
  rcases h : (l.closed || l.closeSent) with - | -
  · rcases hc : l.chain with - | p
    · have hrefused : l.accept f = (l, .error .notConnected) := by
        rw [accept, prepare_eq_prepareAlone he, prepareAlone_of_none h hc]
      rw [hrefused]
      exact .notConnected h hc
    · have hprepare := prepareAlone_of_some h hc f
      rcases hp : p.outgoing { f with masked := true, mask := l.keys l.drawn } with ⟨p', e | g⟩
      · rw [hp] at hprepare
        rw [accept, prepare_eq_prepareAlone he, hprepare]
        exact .refused h hc rfl
      · rw [hp] at hprepare
        rcases hg : g.encode l.inUse with e | octets
        · have hencode : (g.encode l.inUse).mapError ChannelError.codec = .error (.codec e) := by
            rw [hg]
            rfl
          rw [accept, prepare_eq_prepareAlone he, hprepare]
          simp only [hencode]
          exact .refused h hc rfl
        · have hne : octets.isEmpty = false := by simpa using encode_ne_nil hg
          have hencode : (g.encode l.inUse).mapError ChannelError.codec = .ok octets := by
            rw [hg]
            rfl
          rw [accept, prepare_eq_prepareAlone he, hprepare]
          simp only [hencode, hne, record]
          exact .accepted h hc hp hg
  · have hrefused : l.accept f = (l, .error .closed) := by
      rw [accept, prepare_eq_prepareAlone he, prepareAlone_of_closed h]
    rw [hrefused]
    exact .closed h

/-! ### Any number of frames -/

/-- Sending can bring about `l'` where it finds `l`, if only for a moment. -/
inductive Sending (l : Link ε) : Link ε → Prop
  | refl : Sending l l
  | accept {l' : Link ε} (h : Sending l l') (f : Frame) : Sending l (l'.accept f).1
  | note {l' : Link ε} (h : Sending l l') {e : Event} (he : e.isSendNote) :
      Sending l (l'.record e)
  | queue {l' : Link ε} (h : Sending l l') (onWrite : List (List Outgoing))
      (pending : List Bytes) (writing : Bool) :
      Sending l { l' with onWrite, pending, writing }

namespace Sending

theorem trans {l l' l'' : Link ε} (h : l.Sending l') (h' : l'.Sending l'') : l.Sending l'' := by
  induction h' with
  | refl => exact h
  | accept _ f ih => exact ih.accept f
  | note _ he ih => exact ih.note he
  | queue _ onWrite pending writing ih => exact ih.queue onWrite pending writing

theorem foldl {step : Link ε → α → Link ε} (hstep : ∀ l a, Sending l (step l a)) (l : Link ε)
    (as : List α) : l.Sending (as.foldl step l) := by
  induction as generalizing l with
  | nil => exact .refl
  | cons a as ih => exact (hstep l a).trans (ih (step l a))

end Sending

theorem sending_acceptNested (l : Link ε) (o : Outgoing) : l.Sending (l.acceptNested o) := by
  unfold acceptNested
  split
  · exact .note .refl rfl
  · next f _ => exact .note (.accept .refl f) rfl

omit [Extension ε] in
theorem foldl_record (l : Link ε) (es : List Event) :
    es.foldl record l = { l with log := es.reverse ++ l.log } := by
  induction es generalizing l with
  | nil => rfl
  | cons e es ih =>
    rw [List.foldl_cons, ih]
    simp [record]

theorem sending_flushThrough (nested : List (List Outgoing)) (l : Link ε) :
    l.Sending (flushThrough nested l) := by
  induction nested generalizing l with
  | nil =>
    have hwrites : l.Sending ((l.pending.map Event.write).foldl record l) := by
      rw [List.foldl_map]
      exact Sending.foldl (fun _ _ => .note .refl rfl) l l.pending
    rw [foldl_record] at hwrites
    exact hwrites.queue [] [] false
  | cons sends later ih =>
    rcases hp : l.pending with - | ⟨octets, pending⟩
    · have hstop :
          l.Sending { l with onWrite := sends :: later, pending := [], writing := false } :=
        .queue .refl _ _ _
      simpa only [flushThrough, hp] using hstop
    · have htaken : l.Sending { l with onWrite := l.onWrite, pending, writing := l.writing } :=
        .queue .refl _ _ _
      have hround := htaken.trans (Sending.foldl sending_acceptNested _ sends)
      simp only [flushThrough, hp]
      exact (hround.note rfl).trans (ih _)

/-- What is behind the acceptance of a frame is sending as well. -/
theorem accept_sending_send (l : Link ε) (f : Frame) : (l.accept f).1.Sending (l.send f).1 := by
  unfold send
  rcases l.accept f with ⟨l', e | ⟨⟩⟩
  · exact .refl
  · dsimp only
    split
    · exact .refl
    · exact (Sending.queue .refl [] l'.pending true).trans (sending_flushThrough _ _)

theorem sending_send (l : Link ε) (f : Frame) : l.Sending (l.send f).1 :=
  (Sending.accept .refl f).trans (accept_sending_send l f)

theorem sending_submit (l : Link ε) (o : Outgoing) : l.Sending (l.submit o).1 := by
  unfold submit
  split
  · exact .refl
  · exact sending_send l _

theorem sending_reply (l : Link ε) (o : Outgoing) : l.Sending (Channel.reply l o) :=
  (sending_submit l o).note rfl

/-! ### What sending leaves as it is -/

namespace Sending

variable {l l' : Link ε}

/-- Nothing is ever left behind the extensions. -/
theorem egress (h : l.Sending l') (he : l.egress = []) : l'.egress = [] := by
  induction h with
  | refl => exact he
  | @accept l' _ f ih =>
    have hf := accepts_accept ih f
    generalize l'.accept f = r at hf
    cases hf with
    | closed | notConnected | refused | accepted => exact ih
  | note _ _ ih => exact ih
  | queue _ _ _ _ ih => exact ih

/-- The link is not closed by sending, and what may be written stays the same. -/
theorem settings (h : l.Sending l') :
    l'.closed = l.closed ∧ l'.inUse = l.inUse ∧ l'.chain.isSome = l.chain.isSome := by
  induction h with
  | refl => exact ⟨rfl, rfl, rfl⟩
  | @accept l' _ f ih =>
    obtain ⟨_, _, _, _, _, _, heq, hchain, -⟩ := exists_accept_eq l' f
    rw [heq]
    exact ⟨ih.1, ih.2.1, hchain.trans ih.2.2⟩
  | note _ _ ih => exact ih
  | queue _ _ _ _ ih => exact ih

/-- The log grows by what is noted of sending. -/
theorem events (h : l.Sending l') :
    ∃ E : List Event, l'.events = l.events ++ E ∧ ∀ e ∈ E, e.isTraffic := by
  induction h with
  | refl => exact ⟨[], by simp, by simp⟩
  | @accept l' _ f ih =>
    obtain ⟨E, hE, hall⟩ := ih
    obtain ⟨_, _, _, _, _, _, heq, -, hlog⟩ := exists_accept_eq l' f
    rw [heq]
    rcases hlog with rfl | ⟨octets, rfl⟩
    · exact ⟨E, hE, hall⟩
    · refine ⟨E ++ [.accept f octets], ?_, ?_⟩
      · rw [← List.append_assoc, ← hE]
        exact events_record l' _
      · intro e he
        rcases List.mem_append.1 he with he | he
        · exact hall e he
        · rw [List.mem_singleton.1 he]
          rfl
  | @note l' _ e he ih =>
    obtain ⟨E, hE, hall⟩ := ih
    refine ⟨E ++ [e], by rw [events_record, hE, List.append_assoc], ?_⟩
    intro e' he'
    rcases List.mem_append.1 he' with he' | he'
    · exact hall e' he'
    · rw [List.mem_singleton.1 he']
      exact Event.isTraffic_of_isSendNote he
  | queue _ _ _ _ ih => exact ih

end Sending

end Link

end WebSocket
