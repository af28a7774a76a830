/-
WebSocket/Proofs/Channel/SendOrder.lean

Frames are written in the order in which they were accepted.

A write may send again, and what is sent from within it only joins the queue of the
sender that is writing.  So one send from outside brings about a whole sequence of
attempts: itself, then what is sent from within the first write, then what is sent from
within the second, and so on.  `attempts` says what becomes of such a sequence if nobody
writes at all, and the main statement is that the queue makes no difference: what is
written is what the attempts give, in their order (`submit_eq`).

The invariant of the loop is in `flushThrough_eq`: what the loop still writes is what
waits, and behind it what the attempts give that are made from within its writes.  Behind
a send the link is idle again, and so it is between all that a channel does to it
(`Reaches.writesAccepted`).
-/
import WebSocket.Channel.Connection
import WebSocket.Extension.Identity
import WebSocket.Proofs.Channel.Prepare
import WebSocket.Proofs.Channel.Reach

namespace WebSocket

/-! ### What a log shows -/

namespace Event

/-- The octets that are given to the endpoint. -/
def written? : Event → Option Bytes
  | write octets => some octets
  | _ => none

/-- The octets that are accepted. -/
def accepted? : Event → Option Bytes
  | accept _ octets => some octets
  | _ => none

/-- What is answered to a send from within a write. -/
def nested? : Event → Option (Option ChannelError)
  | nested refusal => some refusal
  | _ => none

theorem not_sent_of_isNote {e : Event} (h : e.isNote) :
    e.written? = none ∧ e.accepted? = none := by
  cases e <;> first | exact ⟨rfl, rfl⟩ | cases h

end Event

/-- Of what came behind `before`, what was written is what was accepted, in the same
order. -/
def WritesAccepted (before events : List Event) : Prop :=
  ∃ E : List Event, events = before ++ E
    ∧ E.filterMap Event.written? = E.filterMap Event.accepted?

namespace WritesAccepted

theorem refl (before : List Event) : WritesAccepted before before :=
  ⟨[], by simp, rfl⟩

theorem trans {before events events' : List Event} (h : WritesAccepted before events)
    (h' : WritesAccepted events events') : WritesAccepted before events' := by
  obtain ⟨E, hE, heq⟩ := h
  obtain ⟨E', hE', heq'⟩ := h'
  refine ⟨E ++ E', by rw [hE', hE, List.append_assoc], ?_⟩
  rw [List.filterMap_append, List.filterMap_append, heq, heq']

theorem record {ε : Type} (l : Link ε) {e : Event} (hw : e.written? = none)
    (ha : e.accepted? = none) : WritesAccepted l.events (l.record e).events :=
  ⟨[e], by simp, by simp [hw, ha]⟩

end WritesAccepted

namespace Link

/-- The octets of the attempts that succeeded. -/
def sent (rs : List (Except ChannelError Bytes)) : List Bytes :=
  rs.filterMap Except.toOption

@[simp] theorem sent_nil : sent [] = [] := rfl

@[simp] theorem sent_cons_error (e : ChannelError) (rs : List (Except ChannelError Bytes)) :
    sent (.error e :: rs) = sent rs := rfl

@[simp] theorem sent_cons_ok (octets : Bytes) (rs : List (Except ChannelError Bytes)) :
    sent (.ok octets :: rs) = octets :: sent rs := rfl

theorem sent_cons (r : Except ChannelError Bytes) (rs : List (Except ChannelError Bytes)) :
    sent (r :: rs) = sent [r] ++ sent rs := by
  cases r <;> rfl

@[simp] theorem sent_append (front back : List (Except ChannelError Bytes)) :
    sent (front ++ back) = sent front ++ sent back :=
  List.filterMap_append

theorem mem_sent {octets : Bytes} {rs : List (Except ChannelError Bytes)} :
    octets ∈ sent rs ↔ .ok octets ∈ rs := by
  induction rs with
  | nil => simp
  | cons r rs ih => cases r <;> simp [ih]

/-- Nothing waits, and nobody is writing. -/
structure Idle {ε : Type} (l : Link ε) : Prop where
  pending : l.pending = []
  egress : l.egress = []
  writing : l.writing = false

/-- In this part of a log these octets are written, and the attempts with these results are
made from within the writes. -/
structure Shows (E : List Event) (written : List Bytes) (rs : List (Except ChannelError Bytes)) :
    Prop where
  written : E.filterMap Event.written? = written
  accepted : E.filterMap Event.accepted? = sent rs
  nested : E.filterMap Event.nested? = rs.map refusal

namespace Shows

variable {E E' : List Event} {written written' : List Bytes}
  {rs rs' : List (Except ChannelError Bytes)}

theorem nil : Shows [] [] [] :=
  ⟨rfl, rfl, rfl⟩

theorem append (h : Shows E written rs) (h' : Shows E' written' rs') :
    Shows (E ++ E') (written ++ written') (rs ++ rs') := by
  refine ⟨?_, ?_, ?_⟩
  · rw [List.filterMap_append, h.written, h'.written]
  · rw [List.filterMap_append, h.accepted, h'.accepted, sent_append]
  · rw [List.filterMap_append, h.nested, h'.nested, List.map_append]

theorem write (octets : Bytes) (h : Shows E written rs) :
    Shows (.write octets :: E) (octets :: written) rs :=
  ⟨congrArg (octets :: ·) h.written, h.accepted, h.nested⟩

theorem map_write (pending : List Bytes) : Shows (pending.map .write) pending [] := by
  induction pending with
  | nil => exact .nil
  | cons octets pending ih => exact ih.write octets

end Shows

variable {ε : Type} [Extension ε]

/-! ### Sends from within a write -/

/-- A send from within a write is an attempt whose octets join the queue. -/
theorem acceptNested_eq {l : Link ε} (he : l.egress = []) (o : Outgoing) :
    ∃ E : List Event, l.acceptNested o
        = { (l.attempt o).1 with
            log := E.reverse ++ l.log, pending := l.pending ++ sent [(l.attempt o).2] }
      ∧ Shows E [] [(l.attempt o).2] := by
  unfold acceptNested attempt
  rcases o.toFrame with e | f
  · exact ⟨[.nested (some e)], by simp [record, sent, Except.toOption], rfl, rfl, rfl⟩
  · dsimp only
    rcases accept_cases he f with ⟨e, hr, ha⟩ | ⟨octets, hr, ha⟩
    · rw [ha, hr]
      exact ⟨[.nested (some e)],
        by simp [record, refusal, sent, Except.toOption], rfl, rfl, rfl⟩
    · rw [ha, hr]
      exact ⟨[.accept f octets, .nested none],
        by simp [record, refusal, sent, Except.toOption], rfl, rfl, rfl⟩

theorem foldl_acceptNested_eq {l : Link ε} (he : l.egress = []) (os : List Outgoing) :
    ∃ E : List Event, os.foldl acceptNested l
        = { (l.attempts os).1 with
            log := E.reverse ++ l.log, pending := l.pending ++ sent (l.attempts os).2 }
      ∧ Shows E [] (l.attempts os).2 := by
  induction os generalizing l with
  | nil => exact ⟨[], by simp [attempts], .nil⟩
  | cons o os ih =>
    obtain ⟨E, hl, hE⟩ := acceptNested_eq he o
    have he' : (l.acceptNested o).egress = [] := by rw [hl]; simpa using he
    obtain ⟨E', hl', hE'⟩ := ih he'
    -- The queue and the log of the first attempt do not show in the others.
    have hrest := attempts_with (l.attempt o).1 os (E.reverse ++ l.log) (l.attempt o).1.onWrite
      (l.pending ++ sent [(l.attempt o).2]) (l.attempt o).1.writing
    rw [← hl] at hrest
    rw [hrest] at hE'
    refine ⟨E ++ E', ?_, hE.append hE'⟩
    have hsent := sent_cons (l.attempt o).2 ((l.attempt o).1.attempts os).2
    rw [List.foldl_cons, hl', hrest, hl]
    simp only [attempts, hsent, onWrite_attempts, writing_attempts, List.reverse_append,
      List.append_assoc]

/-! ### The loop -/

/-- One round of the loop: what is sent from within a write joins what waits behind the
octets that are being written. -/
theorem round_eq {l : Link ε} (he : l.egress = []) (octets : Bytes) (pending : List Bytes)
    (sends : List Outgoing) :
    ∃ E : List Event, (sends.foldl acceptNested { l with pending }).record (.write octets)
        = { (l.attempts sends).1 with
            log := .write octets :: (E.reverse ++ l.log), onWrite := l.onWrite,
            pending := pending ++ sent (l.attempts sends).2, writing := l.writing }
      ∧ Shows E [] (l.attempts sends).2 := by
  obtain ⟨E, hl, hE⟩ := foldl_acceptNested_eq (l := { l with pending }) he sends
  have hwith := attempts_with l sends l.log l.onWrite pending l.writing
  rw [hwith] at hl hE
  refine ⟨E, ?_, hE⟩
  rw [hl]
  rfl

/-- The loop writes what waits, and behind it what is accepted from within its writes.
It takes one list of nested sends for each write, as long as there is one. -/
theorem flushThrough_eq (nested : List (List Outgoing)) {l : Link ε} (he : l.egress = []) :
    ∃ (k : Nat) (E : List Event), flushThrough nested l
        = { (l.attempts (nested.take k).flatten).1 with
            log := E.reverse ++ l.log, onWrite := nested.drop k, pending := [], writing := false }
      ∧ Shows E (l.pending ++ sent (l.attempts (nested.take k).flatten).2)
          (l.attempts (nested.take k).flatten).2
      ∧ k = min nested.length (E.filterMap Event.written?).length := by
  induction nested generalizing l with
  | nil =>
    refine ⟨0, l.pending.map .write, rfl, ?_, by simp⟩
    simpa [attempts] using Shows.map_write l.pending
  | cons sends later ih =>
    rcases hp : l.pending with - | ⟨octets, pending⟩
    · refine ⟨0, [], ?_, .nil, by simp⟩
      simp [flushThrough, hp, attempts]
    · -- After the first round the loop goes on with what then waits, and `ih` counts the
      -- octets of this round's nested sends among it.
      obtain ⟨E, hround, hE⟩ := round_eq he octets pending sends
      have he' : ((sends.foldl acceptNested { l with pending }).record (.write octets)).egress
          = [] := by
        rw [hround]
        exact (egress_attempts l sends).trans he
      obtain ⟨k, E', hl', hE', hk⟩ := ih he'
      have hrest := attempts_with (l.attempts sends).1 (later.take k).flatten
        (.write octets :: (E.reverse ++ l.log)) l.onWrite
        (pending ++ sent (l.attempts sends).2) l.writing
      rw [hround, hrest] at hl' hE'
      have hall : l.attempts ((sends :: later).take (k + 1)).flatten
          = (((l.attempts sends).1.attempts (later.take k).flatten).1,
            (l.attempts sends).2 ++ ((l.attempts sends).1.attempts (later.take k).flatten).2) :=
        attempts_append l sends _
      have hboth := hE.append (hE'.write octets)
      refine ⟨k + 1, E ++ .write octets :: E', ?_, ?_, ?_⟩
      · rw [flushThrough]
        simp only [hp]
        rw [hround, hl', hall]
        simp
      · rw [hall, sent_append]
        simpa using hboth
      · rw [hE'.written] at hk
        rw [hboth.written, List.nil_append, List.length_cons, List.length_cons]
        omega

/-! ### A send from outside -/

/-- What the application is told of an attempt. -/
def told (r : Except ChannelError Bytes) : Except ChannelError Unit :=
  r.map fun _ => ()

/-- A send from outside, while nobody is writing: all that comes of it is what comes of
the attempts, one after the other, and the queue is empty again. -/
theorem submit_eq {l : Link ε} (hl : l.Idle) (o : Outgoing) :
    ∃ (k : Nat) (E : List Event) (r : Except ChannelError Bytes)
        (rs : List (Except ChannelError Bytes)),
      (l.attempts (o :: (l.onWrite.take k).flatten)).2 = r :: rs
      ∧ l.submit o
        = ({ (l.attempts (o :: (l.onWrite.take k).flatten)).1 with
              log := E.reverse ++ l.log, onWrite := l.onWrite.drop k }, told r)
      ∧ E.filterMap Event.written? = sent (r :: rs)
      ∧ E.filterMap Event.accepted? = sent (r :: rs)
      ∧ E.filterMap Event.nested? = rs.map refusal
      ∧ k = min l.onWrite.length (sent (r :: rs)).length := by
  unfold submit
  rcases hf : o.toFrame with e | f
  · have ho : l.attempt o = (l, .error e) := by simp [attempt, hf]
    exact ⟨0, [], .error e, [], by simp [attempts, ho], by simp [attempts, ho, told, Except.map],
      rfl, rfl, rfl, by simp⟩
  · have ho : l.attempt o = l.prepareAlone f := by simp [attempt, hf]
    unfold send
    rcases accept_cases hl.egress f with ⟨e, hr, ha⟩ | ⟨octets, hr, ha⟩
    · refine ⟨0, [], .error e, [], by simp [attempts, ho, hr], ?_, rfl, rfl, rfl, by simp⟩
      simp only [ha, attempts, ho, told, Except.map, hr, List.reverse_nil, List.nil_append,
        List.take_zero, List.flatten_nil, List.drop_zero, Prod.mk.injEq, and_true]
      obtain ⟨_, _, _, heq⟩ := prepareAlone_frame l f
      rw [heq]
    · -- Nobody is writing, so this sender writes what waits: its own octets.
      have he : ({ (l.prepareAlone f).1 with
            log := .accept f octets :: l.log, onWrite := [], pending := [octets],
            writing := true } : Link ε).egress = [] :=
          (egress_prepareAlone l f).trans hl.egress
      obtain ⟨k, E, hflush, ⟨hw, hacc, hn⟩, hk⟩ := flushThrough_eq l.onWrite he
      rw [attempts_with] at hflush hw hacc hn
      refine ⟨k, .accept f octets :: E, .ok octets,
        ((l.prepareAlone f).1.attempts (l.onWrite.take k).flatten).2, ?_, ?_, hw, ?_, hn, ?_⟩
      · simp [attempts, ho, hr]
      · simp only [ha, writing_prepareAlone, hl.writing, flush, hl.pending, onWrite_prepareAlone,
          List.nil_append, Bool.false_eq_true, if_false, hflush]
        simp [attempts, ho, told, Except.map, hl.pending, hl.writing]
      · exact congrArg (octets :: ·) hacc
      · exact hk.trans (congrArg (fun octets => min l.onWrite.length octets.length) hw)

theorem Idle.submit {l : Link ε} (hl : l.Idle) (o : Outgoing) : (l.submit o).1.Idle := by
  obtain ⟨k, E, r, rs, -, heq, -⟩ := submit_eq hl o
  rw [heq]
  exact ⟨by simp [hl.pending], by simpa using hl.egress, by simp [hl.writing]⟩

/-- What a send from outside adds to the log. -/
theorem events_submit {l : Link ε} (hl : l.Idle) (o : Outgoing) :
    ∃ (k : Nat) (E : List Event) (r : Except ChannelError Bytes)
        (rs : List (Except ChannelError Bytes)),
      (l.attempts (o :: (l.onWrite.take k).flatten)).2 = r :: rs
      ∧ (l.submit o).1.events = l.events ++ E
      ∧ (l.submit o).2 = told r
      ∧ E.filterMap Event.nested? = rs.map refusal
      ∧ E.filterMap Event.accepted? = sent (r :: rs)
      ∧ E.filterMap Event.written? = sent (r :: rs)
      ∧ k = min l.onWrite.length (sent (r :: rs)).length := by
  obtain ⟨k, E, r, rs, hrs, heq, hw, ha, hn, hk⟩ := submit_eq hl o
  exact ⟨k, E, r, rs, hrs, by simp [heq, events], by rw [heq], hn, ha, hw, hk⟩

/-! ### The sending half of a channel -/

theorem Idle.incoming {l : Link ε} (hl : l.Idle) (f : Frame) : (l.incoming f).1.Idle := by
  unfold Link.incoming
  split
  · exact hl
  · exact ⟨hl.pending, hl.egress, hl.writing⟩

theorem writesAccepted_incoming (l : Link ε) (f : Frame) :
    WritesAccepted l.events (l.incoming f).1.events := by
  unfold Link.incoming
  split <;> exact .refl l.events

theorem Idle.writesAccepted_submit {l : Link ε} (hl : l.Idle) (o : Outgoing) :
    WritesAccepted l.events (l.submit o).1.events := by
  obtain ⟨k, E, r, rs, -, hE, -, -, ha, hw, -⟩ := events_submit hl o
  exact ⟨E, hE, hw.trans ha.symm⟩

/-- Whatever a channel does to an idle link, it leaves it idle, and has written what it has
accepted. -/
theorem Reaches.writesAccepted {l l' : Link ε} (h : l.Reaches l') (hl : l.Idle) :
    l'.Idle ∧ WritesAccepted l.events l'.events := by
  induction h with
  | refl => exact ⟨hl, .refl _⟩
  | @send l' _ f ih =>
    exact ⟨ih.1.submit (.frame f), ih.2.trans (ih.1.writesAccepted_submit (.frame f))⟩
  | @incoming l' _ f ih => exact ⟨ih.1.incoming f, ih.2.trans (writesAccepted_incoming l' f)⟩
  | close _ ih => exact ⟨⟨ih.1.pending, ih.1.egress, ih.1.writing⟩, ih.2⟩
  | @note l' _ e he ih =>
    obtain ⟨hw, ha⟩ := Event.not_sent_of_isNote he
    exact ⟨⟨ih.1.pending, ih.1.egress, ih.1.writing⟩, ih.2.trans (.record l' hw ha)⟩
  | onWrite _ nested ih => exact ⟨⟨ih.1.pending, ih.1.egress, ih.1.writing⟩, ih.2⟩

/-- The sending halves of the channels that were connected when `before` had happened,
between two sends from outside: the handler of the endpoint may be replaced, and then there
is all that a channel and its application do (`Channel.reaches_react`, `Reaches.submit`). -/
inductive Upgraded (before : List Event) : Link ε → Prop
  | connect (onWrite : List (List Outgoing)) (keys : Nat → UInt32) {σ : Type} (session : σ)
      (extensions : List ε) :
      Upgraded before
        (Channel.connect { log := before.reverse, onWrite, keys } session extensions).link
  | replaceHandler {l : Link ε} (h : Upgraded before l) :
      Upgraded before (l.record .replaceHandler)
  | reaches {l l' : Link ε} (h : Upgraded before l) (hl : l.Reaches l') : Upgraded before l'

theorem Upgraded.writesAccepted {before : List Event} {l : Link ε} (h : Upgraded before l) :
    l.Idle ∧ WritesAccepted before l.events := by
  induction h with
  | connect => exact ⟨⟨rfl, rfl, rfl⟩, [], by simp [events, Channel.connect], rfl⟩
  | @replaceHandler l _ ih =>
    exact ⟨⟨ih.1.pending, ih.1.egress, ih.1.writing⟩, ih.2.trans (.record l rfl rfl)⟩
  | reaches _ hl ih =>
    obtain ⟨hidle, hw⟩ := hl.writesAccepted ih.1
    exact ⟨hidle, ih.2.trans hw⟩

/-- **Frames are written in the order in which they were accepted.**  Between two sends
from outside nothing waits, neither behind the extensions nor to be written, and nobody is
writing; all that was accepted since the channel was connected was written, in the same
order.

When `o` is sent, and `nested` from within the writes, one list for each write, then `o`
and the first `k` lists of `nested` are attempted in their order, where `r` and `rs` are
the results of `attempts`.  The application is told these results, what is written is the
octets of those that succeeded, each once, and each is a frame in its written form; those
that failed add nothing. -/
theorem Upgraded.written_in_order {before : List Event} {l : Link ε} (h : Upgraded before l) :
    l.Idle
    ∧ (∃ E, l.events = before ++ E
        ∧ E.filterMap Event.written? = E.filterMap Event.accepted?)
    ∧ ∀ (nested : List (List Outgoing)) (o : Outgoing),
        let start : Link ε := { l with onWrite := nested }
        let behind := start.submit o
        ∃ (k : Nat) (E : List Event) (r : Except ChannelError Bytes)
            (rs : List (Except ChannelError Bytes)),
          (start.attempts (o :: (nested.take k).flatten)).2 = r :: rs
          ∧ behind.1.events = l.events ++ E
          ∧ behind.2 = told r ∧ E.filterMap Event.nested? = rs.map refusal
          ∧ E.filterMap Event.accepted? = sent (r :: rs)
          ∧ E.filterMap Event.written? = sent (r :: rs)
          ∧ (∀ octets ∈ sent (r :: rs), ∃ f : Frame, f.encode l.inUse = .ok octets)
          ∧ k = min nested.length (sent (r :: rs)).length
          ∧ behind.1.Idle ∧ Upgraded before behind.1 := by
  obtain ⟨hidle, hwritten⟩ := h.writesAccepted
  refine ⟨hidle, hwritten, fun nested o => ?_⟩
  have hl : Idle { l with onWrite := nested } := ⟨hidle.pending, hidle.egress, hidle.writing⟩
  obtain ⟨k, E, r, rs, hrs, hE, hr, hn, ha, hw, hk⟩ := events_submit hl o
  refine ⟨k, E, r, rs, hrs, hE, hr, hn, ha, hw, fun octets hmem => ?_, hk, hl.submit o,
    h.reaches (.submit (.onWrite .refl nested) o)⟩
  have hattempt : .ok octets
      ∈ (attempts { l with onWrite := nested } (o :: (nested.take k).flatten)).2 := by
    rw [hrs]
    exact mem_sent.1 hmem
  exact encode_of_mem_attempts (l := { l with onWrite := nested }) hattempt

/-- A close frame and a message are sent from within the write of a message: both the
message that is being written and the close frame are written, and the other message is
refused.  Before the channel was connected, something else was written. -/
theorem written_in_order_of_close_in_write :
    let l : Link Extension.Identity := (Channel.connect
      { log := [.write [71]], keys := fun _ => 0 } () [({} : Extension.Identity)]).link
    let sends : List Outgoing := [.frame (.single .close []), .binary [98]]
    let behind := (submit { l with onWrite := [sends] } (.binary [97])).1
    Upgraded [.write [71]] behind ∧ behind.Idle
      ∧ (∃ E, behind.events = [.write [71]] ++ E
        ∧ E.filterMap Event.written? = E.filterMap Event.accepted?)
      ∧ behind.events.filterMap Event.accepted?
        = [[0x82, 0x81, 0, 0, 0, 0, 97], [0x88, 0x80, 0, 0, 0, 0]]
      ∧ behind.events.filterMap Event.nested? = [none, some .closed] := by
  intro l sends behind
  have hl : Upgraded [.write [71]] l := .connect [] (fun _ => 0) () [({} : Extension.Identity)]
  have hbehind : Upgraded [.write [71]] behind :=
    hl.reaches (.submit (.onWrite .refl [sends]) (.binary [97]))
  obtain ⟨hidle, hwritten, -⟩ := hbehind.written_in_order
  exact ⟨hbehind, hidle, hwritten, by decide +kernel, by decide +kernel⟩

end Link

end WebSocket
