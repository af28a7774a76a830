/-
WebSocket/Proofs/Channel/Pongs.lean

Pings are answered.

Design.  What a channel does by itself because of a frame is what happens between the moment at
which the application returns and the moment at which the frame is dealt with
(`Encounter.answer`).  In this part of the log a frame that the channel hands in can be told
from one that the application sends from within a write, as the latter is noted as such
(`Event.handedIn`).

Whether the pong is accepted depends on the flag `closeSent` alone, and as long as no frame was
refused, this flag says whether a close frame was accepted.  `Tallies` is the invariant.  It
is about frames as they were handed in, so extensions may do to them whatever they like.
-/
import WebSocket.Proofs.Channel.Course
import WebSocket.Proofs.Channel.PeerReads
import WebSocket.Proofs.Channel.Closing

namespace WebSocket

/-! ### Frames that are handed in -/

namespace Event

/-- The frames that are accepted, apart from those that are sent from within a write: behind
these it is noted that they were. -/
def handedIn : List Event → List Frame
  | .accept _ _ :: .nested none :: E => handedIn E
  | .accept f _ :: E => f :: handedIn E
  | _ :: E => handedIn E
  | [] => []

theorem handedIn_concat_close (E : List Event) : handedIn (E ++ [.close]) = handedIn E := by
  fun_induction handedIn E with
  | case1 f octets E ih => exact ih
  | case2 f octets E hnot ih =>
    rw [← ih, List.cons_append, handedIn]
    rintro E' heq
    cases E with
    | nil => cases heq
    | cons e E =>
      obtain ⟨rfl, -⟩ := List.cons.inj heq
      exact hnot E rfl
  | case3 e E _ hnot ih =>
    rw [← ih, List.cons_append, handedIn]
    · exact fun f octets _ he _ => hnot f octets he
    · exact hnot
  | case4 => rfl

/-- What happens while the queue is written: octets are given to the endpoint, and what is
sent from within these writes is accepted or refused. -/
inductive Flush : List Event → Prop
  | nil : Flush []
  | write (octets : Bytes) {E : List Event} (h : Flush E) : Flush (.write octets :: E)
  | accepted (f : Frame) (octets : Bytes) {E : List Event} (h : Flush E) :
      Flush (.accept f octets :: .nested none :: E)
  | refused (e : ChannelError) {E : List Event} (h : Flush E) : Flush (.nested (some e) :: E)

namespace Flush

variable {E F : List Event}

theorem append (h : Flush E) (h' : Flush F) : Flush (E ++ F) := by
  induction h with
  | nil => exact h'
  | write octets _ ih => exact .write octets ih
  | accepted f octets _ ih => exact .accepted f octets ih
  | refused e _ ih => exact .refused e ih

theorem map_write (pending : List Bytes) : Flush (pending.map .write) := by
  induction pending with
  | nil => exact .nil
  | cons octets pending ih => exact .write octets ih

theorem handedIn_append (h : Flush E) (F : List Event) : handedIn (E ++ F) = handedIn F := by
  induction h with
  | nil => rfl
  | write _ _ ih => exact ih
  | accepted _ _ _ ih => exact ih
  | refused _ _ ih => exact ih

/-- The frame that begins it all is handed in, and no other one. -/
theorem handedIn_accept (h : Flush E) (f : Frame) (octets : Bytes) :
    handedIn (.accept f octets :: E) = [f] := by
  have hnone : handedIn E = [] := by
    rw [← List.append_nil E, h.handedIn_append]
    rfl
  cases h with
  | nil => rfl
  | write | accepted | refused => exact congrArg (f :: ·) hnone

end Flush

end Event

namespace Link

open Event

variable {ε : Type} [Extension ε]

theorem flush_acceptNested {l : Link ε} (he : l.egress = []) (o : Outgoing) :
    ∃ E, (l.acceptNested o).events = l.events ++ E ∧ Flush E := by
  unfold acceptNested
  split
  · next e _ => exact ⟨[.nested (some e)], events_record l _, .refused e .nil⟩
  · next f _ =>
    have hf := accepts_accept he f
    generalize l.accept f = r at hf
    cases hf with
    | closed | notConnected => exact ⟨_, events_record l _, .refused _ .nil⟩
    | refused => exact ⟨_, events_record _ _, .refused _ .nil⟩
    | @accepted p p' g octets =>
      refine ⟨[.accept f octets, .nested none], ?_, .accepted f octets .nil⟩
      simp [events, record, refusal]

theorem flush_flushThrough (nested : List (List Outgoing)) {l : Link ε} (he : l.egress = []) :
    ∃ E, (flushThrough nested l).events = l.events ++ E ∧ Flush E := by
  induction nested generalizing l with
  | nil => exact ⟨l.pending.map .write, by simp [flushThrough, events], .map_write l.pending⟩
  | cons sends later ih =>
    rcases hp : l.pending with - | ⟨octets, pending⟩
    · exact ⟨[], by simp [flushThrough, hp, events], .nil⟩
    · have hsends (l : Link ε) (he : l.egress = []) :
          ∃ E, (sends.foldl acceptNested l).events = l.events ++ E ∧ Flush E := by
        induction sends generalizing l with
        | nil => exact ⟨[], (List.append_nil _).symm, .nil⟩
        | cons o os ih =>
          obtain ⟨E, hE, hflush⟩ := flush_acceptNested he o
          obtain ⟨E', hE', hflush'⟩ := ih _ ((sending_acceptNested l o).egress he)
          exact ⟨E ++ E', by rw [List.foldl_cons, hE', hE, List.append_assoc],
            hflush.append hflush'⟩
      obtain ⟨E, hE, hflush⟩ := hsends { l with pending } he
      have he' : ((sends.foldl acceptNested { l with pending }).record (.write octets)).egress
          = [] :=
        (Sending.foldl sending_acceptNested { l with pending } sends).egress he
      obtain ⟨E', hE', hflush'⟩ := ih he'
      refine ⟨E ++ .write octets :: E', ?_, hflush.append (.write octets hflush')⟩
      rw [flushThrough]
      simp only [hp]
      rw [hE', events_record, hE, List.append_assoc, List.append_assoc]
      rfl

/-! ### Whether a close frame was sent -/

/-- Since the channel was connected `E` has happened.  No frame was accepted behind a close
frame, and `closeSent` tells whether there was one, unless some frame was refused. -/
structure Tallies (E : List Event) (l : Link ε) : Prop where
  egress : l.egress = []
  chain : l.chain.isSome
  drawn : (E.filterMap accepted?).length ≤ l.drawn
  order : (E.filterMap acceptedFrame?).Pairwise fun f _ => f.opcode ≠ .close
  marked : (∃ f ∈ E.filterMap acceptedFrame?, f.opcode = .close) → l.closeSent
  sent : l.closeSent → (∃ f ∈ E.filterMap acceptedFrame?, f.opcode = .close) ∨ 0 < l.refusals E

omit [Extension ε] in
theorem Fresh.tallies {l : Link ε} (h : l.Fresh) : l.Tallies [] where
  egress := h.idle.egress
  chain := h.chain
  drawn := Nat.zero_le _
  order := .nil
  marked hclose := by simp at hclose
  sent hsent := by
    rw [h.closeSent] at hsent
    cases hsent

namespace Tallies

variable {E : List Event} {l l' : Link ε}

omit [Extension ε] in
/-- As long as frames can be sent, no close frame was accepted. -/
theorem not_close (h : l.Tallies E) (hopen : l.closeSent = false) {f : Frame}
    (hmem : f ∈ E.filterMap acceptedFrame?) : f.opcode ≠ .close := by
  intro hclose
  have hsent := h.marked ⟨f, hmem, hclose⟩
  exact absurd hsent (by simp [hopen])

omit [Extension ε] in
/-- If no frame was refused, the flag says whether a close frame was accepted. -/
theorem closeSent_iff (h : l.Tallies E) (hnone : l.refusals E = 0) :
    l.closeSent ↔ ∃ f octets, .accept f octets ∈ E ∧ f.opcode = .close := by
  constructor
  · intro hsent
    rcases h.sent hsent with ⟨f, hmem, hclose⟩ | hpos
    · obtain ⟨e, he, hf⟩ := List.mem_filterMap.1 hmem
      cases e with
      | accept f' octets =>
        obtain rfl : f' = f := Option.some.inj hf
        exact ⟨f', octets, he, hclose⟩
      | _ => cases hf
    · omega
  · rintro ⟨f, octets, hmem, hclose⟩
    exact h.marked ⟨f, List.mem_filterMap.2 ⟨_, hmem, rfl⟩, hclose⟩

omit [Extension ε] in
/-- Nothing is accepted behind a close frame. -/
theorem last_of_close {A B : List Event} {f : Frame} {octets : Bytes}
    (h : l.Tallies (A ++ .accept f octets :: B)) (hclose : f.opcode = .close) :
    B.filterMap acceptedFrame? = [] ∧ B.filterMap accepted? = [] := by
  have horder : (A.filterMap acceptedFrame? ++ f :: B.filterMap acceptedFrame?).Pairwise
      fun f _ => f.opcode ≠ .close := by
    have hall := h.order
    rw [List.filterMap_append] at hall
    exact hall
  have hnil : B.filterMap acceptedFrame? = [] := by
    apply List.eq_nil_iff_forall_not_mem.2
    intro f' hf'
    exact (List.pairwise_cons.1 (List.pairwise_append.1 horder).2.1).1 f' hf' hclose
  refine ⟨hnil, List.eq_nil_of_length_eq_zero ?_⟩
  rw [← length_acceptedFrame?, hnil, List.length_nil]

/-- A frame is accepted while frames can be sent, and then the close frame is the last. -/
theorem accept (h : l.Tallies E) (f : Frame) :
    ∃ E', (l.accept f).1.events = l.events ++ E' ∧ (l.accept f).1.Tallies (E ++ E')
      ∧ l.refusals E ≤ (l.accept f).1.refusals (E ++ E') := by
  have hf := accepts_accept h.egress f
  have hdrawn := h.drawn
  generalize l.accept f = r at hf
  cases hf with
  | closed | notConnected =>
    refine ⟨[], (List.append_nil _).symm, ?_⟩
    rw [List.append_nil]
    exact ⟨h, Nat.le_refl _⟩
  | refused hopen =>
    have hsent : l.closeSent = false := (Bool.or_eq_false_iff.1 hopen).2
    refine ⟨[], (List.append_nil _).symm, ?_⟩
    rw [List.append_nil]
    refine ⟨⟨h.egress, rfl, Nat.le_succ_of_le hdrawn, h.order, ?_, ?_⟩, ?_⟩
    · rintro ⟨f', hmem, hclose⟩
      exact absurd hclose (h.not_close hsent hmem)
    · intro _
      right
      show 0 < l.drawn + 1 - _
      omega
    · show l.drawn - _ ≤ l.drawn + 1 - _
      omega
  | @accepted p p' g octets hopen =>
    have hsent : l.closeSent = false := (Bool.or_eq_false_iff.1 hopen).2
    have hframes : (E ++ [Event.accept f octets]).filterMap acceptedFrame?
        = E.filterMap acceptedFrame? ++ [f] := by simp [acceptedFrame?]
    have hlength : ((E ++ [Event.accept f octets]).filterMap accepted?).length
        = (E.filterMap accepted?).length + 1 := by simp [accepted?]
    refine ⟨[.accept f octets], events_record l _, ⟨h.egress, rfl, ?_, ?_, ?_, ?_⟩, ?_⟩
    · rw [hlength]
      exact Nat.succ_le_succ hdrawn
    · rw [hframes]
      refine List.pairwise_append.2 ⟨h.order, List.pairwise_singleton _ _, ?_⟩
      intro f' hmem _ _
      exact h.not_close hsent hmem
    · rw [hframes]
      rintro ⟨f', hmem, hclose⟩
      rcases List.mem_append.1 hmem with hmem | hmem
      · exact absurd hclose (h.not_close hsent hmem)
      · rw [List.mem_singleton.1 hmem] at hclose
        exact decide_eq_true hclose
    · intro hclose
      left
      rw [hframes]
      exact ⟨f, by simp, by simpa using hclose⟩
    · show l.drawn - _ ≤ l.drawn + 1 - _
      rw [hlength]
      omega

omit [Extension ε] in
/-- Whatever else is noted makes no difference. -/
theorem note (h : l.Tallies E) {e : Event} (he : e.accepted? = none) :
    (l.record e).Tallies (E ++ [e]) ∧ (l.record e).refusals (E ++ [e]) = l.refusals E := by
  have hoctets : (E ++ [e]).filterMap accepted? = E.filterMap accepted? := by simp [he]
  have hframe : e.acceptedFrame? = none := by
    cases e with
    | accept => cases he
    | _ => rfl
  have hframes : (E ++ [e]).filterMap acceptedFrame? = E.filterMap acceptedFrame? := by
    simp [hframe]
  refine ⟨⟨h.egress, h.chain, ?_, ?_, ?_, ?_⟩, ?_⟩
  · rw [hoctets]
    exact h.drawn
  · rw [hframes]
    exact h.order
  · rw [hframes]
    exact h.marked
  · rw [hframes, refusals, hoctets]
    exact h.sent
  · rw [refusals, hoctets]
    rfl

/-- The number of refusals only grows. -/
theorem kept (n : Nat) : Kept fun E (l : Link ε) => l.Tallies E ∧ n ≤ l.refusals E where
  accept := by
    rintro E l ⟨h, hn⟩ f
    obtain ⟨E', hE', h', hle⟩ := h.accept f
    exact ⟨E', hE', h', Nat.le_trans hn hle⟩
  note := by
    rintro E l ⟨h, hn⟩ e he
    obtain ⟨h', heq⟩ := h.note he
    exact ⟨h', Nat.le_trans hn (Nat.le_of_eq heq.symm)⟩
  aside := by
    rintro E l ⟨h, hn⟩ chain hchain onWrite pending writing closed
    exact ⟨⟨h.egress, hchain.trans h.chain, h.drawn, h.order, h.marked, h.sent⟩, hn⟩

/-- Between all that a channel does. -/
theorem reaches (h : l.Tallies E) (hl : l.Reaches l') :
    ∃ E', l'.events = l.events ++ E' ∧ l'.Tallies (E ++ E')
      ∧ l.refusals E ≤ l'.refusals (E ++ E') :=
  (kept _).reaches ⟨h, Nat.le_refl _⟩ hl

/-- While frames can be sent, what becomes of one shows in the number of refusals: it is
accepted, and what else happens is what is done to write it, unless one more was refused. -/
theorem send (h : l.Tallies E) (hwriting : l.writing = false) (hclosed : l.closed = false)
    (hopen : l.closeSent = false) (f : Frame) :
    (∃ octets F, (l.send f).2 = .ok () ∧ Flush F
        ∧ (l.send f).1.events = l.events ++ .accept f octets :: F)
      ∨ ∃ e, (l.send f).2 = .error e ∧ e ≠ .closed ∧ (l.send f).1.events = l.events
        ∧ 0 < (l.send f).1.refusals E := by
  have hf := accepts_accept h.egress f
  have hdrawn := h.drawn
  unfold Link.send
  generalize l.accept f = r at hf
  cases hf with
  | closed hnot => simp [hclosed, hopen] at hnot
  | notConnected _ hc => exact absurd h.chain (by simp [hc])
  | @refused _ _ e _ _ he =>
    right
    refine ⟨e, rfl, ?_, rfl, ?_⟩
    · rintro rfl
      cases he
    · show 0 < l.drawn + 1 - _
      omega
  | @accepted p p' g octets =>
    left
    dsimp only
    rw [if_neg (by simp [hwriting])]
    obtain ⟨F, hF, hflush⟩ := flush_flushThrough l.onWrite
      (l := { l with
        chain := some p', closeSent := f.opcode = .close, drawn := l.drawn + 1
        log := .accept f octets :: l.log, pending := l.pending ++ [octets]
        onWrite := [], writing := true }) h.egress
    refine ⟨octets, F, rfl, hflush, hF.trans ?_⟩
    simp [events]

end Tallies

end Link

/-! ### The answer to a frame -/

namespace Encounter

variable {σ ε : Type} [Extension ε] [Session σ]

/-- The link when the frame was dealt with. -/
def linkAfter (m : Encounter σ ε) : Link ε :=
  (Channel.take { session := m.session, link := m.link } m.frame).link

/-- What the channel does by itself because of the frame: what happens when the application has
returned, until the frame is dealt with. -/
def answer (m : Encounter σ ε) : List Event :=
  match (m.link.incoming m.frame).2 with
  | .error _ => []
  | .ok g => m.linkAfter.events.drop (m.linkBehind g).events.length

/-- The pong that is owed for a ping that the application was given, if it could still be sent
when the application returned. -/
def pong? (m : Encounter σ ε) : Option Frame :=
  match (m.link.incoming m.frame).2 with
  | .error _ => none
  | .ok g =>
    if g.opcode = .ping ∧ (m.linkBehind g).closeSent = false then some (.single .pong g.payload)
    else none

end Encounter

namespace Channel

open Event

variable {σ ε : Type} [Extension ε] [Session σ]

/-- Neither the decoder nor the buffer makes a difference to the link. -/
theorem linkAfter_encounter {k : Channel σ ε} (hk : k.closed = false) (f : Frame) :
    (k.encounter f).linkAfter = (k.take f).link := by
  have hsame : k = { ({ session := k.session, link := k.link } : Channel σ ε) with
      decoder := k.decoder, buffer := k.buffer } := by
    obtain ⟨⟨_, _, _, _⟩, _⟩ := k
    obtain rfl : _ = false := hk
    rfl
  rw [hsame, take_with]
  rfl

section

variable {k : Channel σ ε} {f g : Frame}
  (hin : ((k.encounter f).link.incoming (k.encounter f).frame).2 = .ok g)

include hin

theorem answer_of_events {E : List Event}
    (h : (k.encounter f).linkAfter.events = ((k.encounter f).linkBehind g).events ++ E) :
    (k.encounter f).answer = E := by
  unfold Encounter.answer
  rw [hin]
  show (k.encounter f).linkAfter.events.drop _ = E
  rw [h, List.drop_left]

variable (hk : k.closed = false) (href : ((k.encounter f).reaction g).refused = false)

include hk href

theorem taken_of_ping (hping : g.opcode = .ping)
    (hsend : (((k.encounter f).linkBehind g).send (.single .pong g.payload)).2 = .ok ()
      ∨ (((k.encounter f).linkBehind g).send (.single .pong g.payload)).2 = .error .closed) :
    (k.encounter f).fate = .taken g
      ∧ (k.encounter f).linkAfter
        = (((k.encounter f).linkBehind g).send (.single .pong g.payload)).1 := by
  rw [linkAfter_encounter hk, take_of_not_refused hin href]
  rcases hsend with hsend | hsend
  · rw [respond_of_pong_sent hping hsend]
    refine ⟨?_, rfl⟩
    simp only [Encounter.fate, hin, href, hping, hsend, Bool.false_eq_true, if_false]
  · rw [respond_of_pong_error hping hsend, if_pos rfl]
    refine ⟨?_, rfl⟩
    simp only [Encounter.fate, hin, href, hping, hsend, Bool.false_eq_true, if_false]

/-- A ping is answered if frames can be sent.  Otherwise nothing happens. -/
theorem answer_of_ping (hping : g.opcode = .ping) {E : List Event}
    (h : ((k.encounter f).linkBehind g).Tallies E)
    (hclosed : ((k.encounter f).linkBehind g).closed = false)
    (hwriting : ((k.encounter f).linkBehind g).writing = false)
    (hnone : (k.encounter f).linkAfter.refusals (E ++ (k.encounter f).answer) = 0) :
    (k.encounter f).fate = .taken g ∧ (k.encounter f).linkAfter.closed = false
      ∧ if ((k.encounter f).linkBehind g).closeSent then
          (k.encounter f).linkAfter = (k.encounter f).linkBehind g ∧ (k.encounter f).answer = []
        else ∃ octets F,
          (k.encounter f).answer = .accept (.single .pong g.payload) octets :: F ∧ Flush F := by
  split
  · next hsent =>
    have hsend := Link.send_of_closeSent hsent (.single .pong g.payload)
    obtain ⟨hfate, hafter⟩ := taken_of_ping hin hk href hping (.inr (by rw [hsend]))
    rw [hsend] at hafter
    refine ⟨hfate, by rw [hafter]; exact hclosed, hafter, answer_of_events hin ?_⟩
    rw [hafter, List.append_nil]
  · next hnot =>
    rcases h.send hwriting hclosed (Bool.eq_false_iff.2 hnot) (.single .pong g.payload) with
      ⟨octets, F, hok, hflush, hevents⟩ | ⟨e, herror, hne, hevents, hpos⟩
    · obtain ⟨hfate, hafter⟩ := taken_of_ping hin hk href hping (.inl hok)
      have hopen := (Link.sending_send ((k.encounter f).linkBehind g)
        (.single .pong g.payload)).settings.1.trans hclosed
      rw [← hafter] at hevents hopen
      exact ⟨hfate, hopen, octets, F, answer_of_events hin hevents, hflush⟩
    · -- If the pong is refused, the endpoint is closed, but the refusal has been counted.
      have hafter : (k.encounter f).linkAfter
          = ({ (((k.encounter f).linkBehind g).send (.single .pong g.payload)).1 with
              closed := true } : Link ε).record .close := by
        rw [linkAfter_encounter hk, take_of_not_refused hin href,
          respond_of_pong_error hping herror, if_neg hne]
        rfl
      have hanswer : (k.encounter f).answer = [.close] := by
        apply answer_of_events hin
        rw [hafter, Link.events_record]
        exact congrArg (· ++ [Event.close]) hevents
      have hsame : (E ++ [Event.close]).filterMap accepted? = E.filterMap accepted? := by
        simp [accepted?]
      rw [hafter, hanswer, Link.refusals, hsame] at hnone
      exact absurd hnone (Nat.pos_iff_ne_zero.1 hpos)

theorem answer_of_close (hclose : g.opcode = .close) {E : List Event}
    (h : ((k.encounter f).linkBehind g).Tallies E)
    (hclosed : ((k.encounter f).linkBehind g).closed = false)
    (hwriting : ((k.encounter f).linkBehind g).writing = false) :
    ∀ f' ∈ handedIn (k.encounter f).answer, f'.opcode = .close := by
  suffices hanswer : ∃ F, (((k.encounter f).linkBehind g).answerClose g.payload).events
      = ((k.encounter f).linkBehind g).events ++ F ∧ ∀ f' ∈ handedIn F, f'.opcode = .close by
    obtain ⟨F, hF, hall⟩ := hanswer
    have hevents : (k.encounter f).linkAfter.events
        = ((k.encounter f).linkBehind g).events ++ (F ++ [.close]) := by
      rw [linkAfter_encounter hk, take_of_close hin href hclose, ← List.append_assoc, ← hF]
      exact Link.events_record _ .close
    rw [answer_of_events hin hevents, handedIn_concat_close]
    exact hall
  unfold Link.answerClose
  split
  · exact ⟨[], (List.append_nil _).symm, List.forall_mem_nil _⟩
  · next hnot =>
    rcases h.send hwriting hclosed (Bool.eq_false_iff.2 hnot)
        (.single .close (Close.answer g.payload)) with
      ⟨octets, F, -, hflush, hevents⟩ | ⟨e, -, -, hevents, -⟩
    · refine ⟨_, hevents, ?_⟩
      rw [hflush.handedIn_accept]
      exact List.forall_mem_singleton.2 rfl
    · exact ⟨[], by rw [hevents, List.append_nil], List.forall_mem_nil _⟩

theorem answer_of_other (hclose : g.opcode ≠ .close) (hping : g.opcode ≠ .ping) :
    (k.encounter f).answer = [] := by
  apply answer_of_events hin
  rw [linkAfter_encounter hk, take_of_not_refused hin href, respond_of_other hclose hping,
    List.append_nil]

/-- Of all that a channel hands in by itself, pongs are only those that it owes. -/
theorem pongs_of_answer {E : List Event} (h : ((k.encounter f).linkBehind g).Tallies E)
    (hclosed : ((k.encounter f).linkBehind g).closed = false)
    (hwriting : ((k.encounter f).linkBehind g).writing = false)
    (hnone : (k.encounter f).linkAfter.refusals (E ++ (k.encounter f).answer) = 0) :
    (handedIn (k.encounter f).answer).filter (·.opcode = .pong) = (k.encounter f).pong?.toList := by
  have hpong : (k.encounter f).pong?
      = if g.opcode = .ping ∧ ((k.encounter f).linkBehind g).closeSent = false
        then some (.single .pong g.payload) else none := by
    unfold Encounter.pong?
    rw [hin]
  rw [hpong]
  by_cases hping : g.opcode = .ping
  · obtain ⟨-, -, hcases⟩ := answer_of_ping hin hk href hping h hclosed hwriting hnone
    split at hcases
    · next hsent =>
      rw [hcases.2, if_neg fun hboth => Bool.false_ne_true (hboth.2.symm.trans hsent)]
      rfl
    · next hnot =>
      obtain ⟨octets, F, heq, hflush⟩ := hcases
      rw [heq, hflush.handedIn_accept, if_pos ⟨hping, Bool.eq_false_iff.2 hnot⟩]
      rfl
  · rw [if_neg fun hboth => hping hboth.1]
    by_cases hclose : g.opcode = .close
    · have hframes := answer_of_close hin hk href hclose h hclosed hwriting
      rw [List.filter_eq_nil_iff.2 fun f' hf' => by simp [hframes f' hf']]
      rfl
    · rw [answer_of_other hin hk href hclose hping]
      rfl

theorem reaches_linkAfter : ((k.encounter f).linkBehind g).Reaches (k.encounter f).linkAfter := by
  rw [linkAfter_encounter hk, take_of_not_refused hin href]
  exact reaches_respond { k with session := _, link := (k.encounter f).linkBehind g } g

/-- What was done until the application returned, and the answer.  If no frame was refused until
then, the pong that is owed is the only one that the channel hands in by itself. -/
theorem Meets.answered {c : Channel σ ε} {met : List (Encounter σ ε)} (h : c.Meets met k)
    (hfresh : c.link.Fresh) (hc : c.closed = false) :
    let m := k.encounter f
    let behind := m.linkBehind g
    ∃ X : List Event, behind.events = c.link.events ++ X
      ∧ m.linkAfter.events = c.link.events ++ (X ++ m.answer)
      ∧ X.filterMap written? = X.filterMap accepted?
      ∧ m.answer.filterMap written? = m.answer.filterMap accepted?
      ∧ m.linkAfter.Tallies (X ++ m.answer)
      ∧ (m.linkAfter.refusals (X ++ m.answer) = 0 →
        (behind.closeSent ↔ ∃ f octets, .accept f octets ∈ X ∧ f.opcode = .close)
          ∧ (handedIn m.answer).filter (·.opcode = .pong) = m.pong?.toList
          ∧ (g.opcode = .ping → m.fate = .taken g ∧ m.linkAfter.closed = false
            ∧ if behind.closeSent then m.linkAfter = behind ∧ m.answer = []
              else ∃ octets F,
                m.answer = .accept (.single .pong g.payload) octets :: F ∧ Flush F)) := by
  intro m behind
  have hbehind : c.link.Reaches behind := h.reaches.trans (reaches_linkBehind k f g)
  have hanswer : behind.Reaches m.linkAfter := reaches_linkAfter hin hk href
  obtain ⟨X, hX, htallies, -⟩ := hfresh.tallies.reaches hbehind
  obtain ⟨A, hA, htallies', hle⟩ := htallies.reaches hanswer
  obtain rfl : m.answer = A := answer_of_events hin hA
  rw [List.nil_append] at htallies htallies' hle
  have hall : m.linkAfter.events = c.link.events ++ (X ++ m.answer) := by
    rw [hA, hX, List.append_assoc]
  have hwritten := hfresh.written_eq_accepted hbehind hX
  have hwritten' : m.answer.filterMap written? = m.answer.filterMap accepted? := by
    have hboth := hfresh.written_eq_accepted (hbehind.trans hanswer) hall
    rw [List.filterMap_append, List.filterMap_append, hwritten] at hboth
    exact List.append_cancel_left hboth
  refine ⟨X, hX, hall, hwritten, hwritten', htallies', ?_⟩
  intro hnone
  obtain ⟨⟨-, -⟩, hlink⟩ := h.logged hc
  have hclosed : behind.closed = false := by
    rw [(serves_of_sending (f := f) (g := g) .refl).closed, hlink, hfresh.closed, hk]
    rfl
  have hidle : behind.Idle := (hbehind.writesAccepted hfresh.idle).1
  have hping := fun hping => answer_of_ping hin hk href hping htallies hclosed hidle.writing hnone
  exact ⟨htallies.closeSent_iff (Nat.eq_zero_of_le_zero (hnone ▸ hle)),
    pongs_of_answer hin hk href htallies hclosed hidle.writing hnone, hping⟩

end

end Channel

end WebSocket
