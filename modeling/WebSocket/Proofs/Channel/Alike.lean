/-
WebSocket/Proofs/Channel/Alike.lean

Channels that look the same from outside.

Two channels are alike if all that can be told apart from outside is the masks of the
frames that were written.  How often an endpoint was asked for octets does not count, nor
does what a closed channel has left unread.  Here `R` relates the masks that may take each
other's place: with `Eq` alike means the same, and with a relation that always holds the
masks may come from different sources.

Extensions see the mask of a frame on its way out, so they have to treat alike frames
alike (`Extension.Respects`).  For `Eq` each of them does.

Then everything a channel does leaves alike channels alike, and it gives the same answers.
There is one lemma for each function, from the way of one frame through the extensions
(`alike_outgoing`) up to reading (`Alike.process`).
-/
import Mathlib.Data.List.Forall2
import WebSocket.Proofs.Channel.Prepare
import WebSocket.Proofs.Channel.Process

namespace WebSocket

variable {R : UInt32 → UInt32 → Prop}

/-! ### Frames, octets and events -/

/-- Frames that differ in their masks at most. -/
inductive Frame.Alike (R : UInt32 → UInt32 → Prop) (f : Frame) : Frame → Prop
  | intro (key : UInt32) (h : R f.mask key) : Alike R f { f with mask := key }

/-- The same octets, or two frames in their written form. -/
inductive Bytes.Alike (R : UInt32 → UInt32 → Prop) : Bytes → Bytes → Prop
  | same (octets : Bytes) : Alike R octets octets
  | wire {f g : Frame} (h : f.Alike R g) : Alike R f.wire g.wire

/-- Events that differ in the masks of written frames at most. -/
inductive Event.Alike (R : UInt32 → UInt32 → Prop) : Event → Event → Prop
  | same (e : Event) : Alike R e e
  | accept (f : Frame) {octets octets' : Bytes} (h : Bytes.Alike R octets octets') :
      Alike R (.accept f octets) (.accept f octets')
  | write {octets octets' : Bytes} (h : Bytes.Alike R octets octets') :
      Alike R (.write octets) (.write octets')

/-- The same error, or values that are alike. -/
inductive Answers {α ξ : Type} (A : α → α → Prop) : Except ξ α → Except ξ α → Prop
  | ok {a b : α} (h : A a b) : Answers A (.ok a) (.ok b)
  | error (e : ξ) : Answers A (.error e) (.error e)

theorem Answers.mapError {α ξ ζ : Type} {A : α → α → Prop} {x y : Except ξ α} (h : Answers A x y)
    (w : ξ → ζ) : Answers A (x.mapError w) (y.mapError w) := by
  cases h with
  | ok h => exact .ok h
  | error e => exact .error (w e)

theorem Frame.Alike.eq {f g : Frame} (h : f.Alike Eq g) : f = g := by
  obtain ⟨key, rfl⟩ := h
  rfl

theorem Bytes.Alike.eq {octets octets' : Bytes} (h : Bytes.Alike Eq octets octets') :
    octets = octets' := by
  cases h with
  | same => rfl
  | wire h => rw [h.eq]

theorem Event.Alike.eq {e e' : Event} (h : e.Alike Eq e') : e = e' := by
  cases h with
  | same => rfl
  | accept f h => rw [h.eq]
  | write h => rw [h.eq]

/-- Alike frames are written or refused alike. -/
theorem Frame.Alike.encode {f g : Frame} (h : f.Alike R g) (inUse : ReservedBits) :
    Answers (Bytes.Alike R) (f.encode inUse) (g.encode inUse) := by
  obtain ⟨key, hkey⟩ := h
  unfold Frame.encode Frame.append
  dsimp only
  rcases (f.rsv.diff inUse).lowest? with - | n
  · exact .ok (.wire ⟨key, hkey⟩)
  · exact .error _

/-! ### Extensions -/

/-- Alike frames are encoded alike. -/
def Extension.Respects (ε : Type) [Extension ε] (R : UInt32 → UInt32 → Prop) : Prop :=
  ∀ (e : ε) (f g : Frame), f.Alike R g →
    (Extension.encode e f).1 = (Extension.encode e g).1
      ∧ Answers (Frame.Alike R) (Extension.encode e f).2 (Extension.encode e g).2

/-- What an extension does with a frame does not depend on its mask. -/
def Extension.MaskBlind (ε : Type) [Extension ε] : Prop :=
  Extension.Respects ε fun _ _ => True

variable {ε : Type} [Extension ε]

theorem Extension.respects_eq : Extension.Respects ε Eq := by
  intro e f g h
  obtain rfl := h.eq
  refine ⟨rfl, ?_⟩
  rcases (Extension.encode e f).2 with err | f'
  · exact .error err
  · exact .ok (.intro f'.mask rfl)

namespace Pipeline

theorem alike_encodeThrough (hR : Extension.Respects ε R) (es : List ε) {f g : Frame}
    (h : f.Alike R g) :
    (encodeThrough es f).1 = (encodeThrough es g).1
      ∧ Answers (Frame.Alike R) (encodeThrough es f).2 (encodeThrough es g).2 := by
  induction es generalizing f g with
  | nil => exact ⟨rfl, .ok h⟩
  | cons e es ih =>
    have hstate := (hR e f g h).1
    have hanswer := (hR e f g h).2
    unfold encodeThrough
    rcases hf : Extension.encode e f with ⟨e₁, r₁⟩
    rcases hg : Extension.encode e g with ⟨e₂, r₂⟩
    rw [hf, hg] at hstate hanswer
    dsimp only at hstate hanswer
    subst hstate
    cases hanswer with
    | ok h' => exact ⟨congrArg (e₁ :: ·) (ih h').1, (ih h').2⟩
    | error err => exact ⟨rfl, .error err⟩

theorem alike_outgoing (hR : Extension.Respects ε R) (p : Pipeline ε) {f g : Frame}
    (h : f.Alike R g) :
    (p.outgoing f).1 = (p.outgoing g).1
      ∧ Answers (Frame.Alike R) (p.outgoing f).2 (p.outgoing g).2 := by
  obtain ⟨hstate, hanswer⟩ := alike_encodeThrough hR p.extensions h
  exact ⟨congrArg Pipeline.mk hstate, hanswer⟩

end Pipeline

/-! ### The sending half -/

/-- Whether an event is anything but a question for octets. -/
def Event.isVisible : Event → Bool
  | fill | fillInterested => false
  | _ => true

theorem Event.Alike.isVisible_eq {e e' : Event} (h : e.Alike R e') :
    e.isVisible = e'.isVisible := by
  cases h <;> rfl

namespace Link

/-- What can be seen from outside, the latest first. -/
def seen (l : Link ε) : List Event :=
  l.log.filter Event.isVisible

omit [Extension ε] in
theorem seen_record {e : Event} (he : e.isVisible) (l : Link ε) :
    (l.record e).seen = e :: l.seen := by
  simp [seen, record, he]

omit [Extension ε] in
theorem seen_record_of_not {e : Event} (he : e.isVisible = false) (l : Link ε) :
    (l.record e).seen = l.seen := by
  simp [seen, record, he]

/-- Links of which the same is to be expected, and that look the same so far.  There is no
egress, which is so between two sends. -/
inductive Alike (R : UInt32 → UInt32 → Prop) (l : Link ε) : Link ε → Prop
  | intro (log : List Event) (pending : List Bytes) (keys : Nat → UInt32)
      (hlog : List.Forall₂ (Event.Alike R) l.seen (log.filter Event.isVisible))
      (hpending : List.Forall₂ (Bytes.Alike R) l.pending pending)
      (hkeys : ∀ n, R (l.keys n) (keys n)) (he : l.egress = []) :
      Alike R l { l with log, pending, keys }

variable {l l' : Link ε}

omit [Extension ε] in
theorem Alike.seen (h : l.Alike R l') : List.Forall₂ (Event.Alike R) l.seen l'.seen := by
  obtain ⟨log, pending, keys, hlog, -⟩ := h
  exact hlog

omit [Extension ε] in
theorem Alike.record (h : l.Alike R l') {e e' : Event} (he : e.Alike R e') :
    (l.record e).Alike R (l'.record e') := by
  obtain ⟨log, pending, keys, hlog, hpending, hkeys, hegress⟩ := h
  refine .intro (e' :: log) pending keys ?_ hpending hkeys hegress
  cases hv : e.isVisible with
  | true =>
    rw [seen_record hv, List.filter_cons_of_pos (by rw [← he.isVisible_eq, hv])]
    exact .cons he hlog
  | false =>
    rw [seen_record_of_not hv, List.filter_cons_of_neg (by simp [← he.isVisible_eq, hv])]
    exact hlog

omit [Extension ε] in
/-- A question for octets cannot be seen. -/
theorem Alike.record_left (h : l.Alike R l') {e : Event} (he : e.isVisible = false) :
    (l.record e).Alike R l' := by
  obtain ⟨log, pending, keys, hlog, hpending, hkeys, hegress⟩ := h
  refine .intro (l := l.record e) log pending keys ?_ hpending hkeys hegress
  rw [seen_record_of_not he]
  exact hlog

omit [Extension ε] in
theorem forall₂_alike_eq {es es' : List Event} :
    List.Forall₂ (Event.Alike Eq) es es' ↔ es = es' := by
  constructor
  · intro h
    exact List.forall₂_eq_eq_eq ▸ h.imp fun _ _ he => he.eq
  · rintro rfl
    exact List.forall₂_same.2 fun e _ => .same e

omit [Extension ε] in
/-- With the same masks, only what cannot be seen may differ. -/
theorem alike_eq_iff :
    l.Alike Eq l' ↔ l.egress = [] ∧ l.seen = l'.seen ∧ ∃ log, l' = { l with log } := by
  constructor
  · rintro ⟨log, pending, keys, hlog, hpending, hkeys, hegress⟩
    obtain rfl : l.keys = keys := funext hkeys
    obtain rfl : l.pending = pending :=
      List.forall₂_eq_eq_eq ▸ hpending.imp fun _ _ ho => ho.eq
    exact ⟨hegress, forall₂_alike_eq.1 hlog, log, rfl⟩
  · rintro ⟨hegress, hseen, log, rfl⟩
    exact .intro log l.pending l.keys (forall₂_alike_eq.2 hseen)
      (List.forall₂_same.2 fun o _ => .same o) (fun _ => rfl) hegress

omit [Extension ε] in
theorem alike_refl (he : l.egress = []) : l.Alike Eq l :=
  alike_eq_iff.2 ⟨he, rfl, l.log, rfl⟩

omit [Extension ε] in
theorem Alike.symm (h : l.Alike Eq l') : l'.Alike Eq l := by
  obtain ⟨hegress, hseen, log, rfl⟩ := alike_eq_iff.1 h
  exact alike_eq_iff.2 ⟨hegress, hseen.symm, l.log, rfl⟩

omit [Extension ε] in
theorem Alike.trans {l'' : Link ε} (h : l.Alike Eq l') (h' : l'.Alike Eq l'') :
    l.Alike Eq l'' := by
  obtain ⟨hegress, hseen, log, rfl⟩ := alike_eq_iff.1 h
  obtain ⟨-, hseen', log', rfl⟩ := alike_eq_iff.1 h'
  exact alike_eq_iff.2 ⟨hegress, hseen.trans hseen', log', rfl⟩

theorem Alike.prepareAlone (hR : Extension.Respects ε R) (h : l.Alike R l') (f : Frame) :
    (l.prepareAlone f).1.Alike R (l'.prepareAlone f).1
      ∧ Answers (Bytes.Alike R) (l.prepareAlone f).2 (l'.prepareAlone f).2 := by
  have halike := h
  obtain ⟨log, pending, keys, hlog, hpending, hkeys, hegress⟩ := h
  cases hclosed : l.closed || l.closeSent with
  | true =>
    rw [prepareAlone_of_closed hclosed,
      prepareAlone_of_closed (l := { l with log, pending, keys }) hclosed]
    exact ⟨halike, .error _⟩
  | false =>
    rcases Option.eq_none_or_eq_some l.chain with hc | ⟨p, hc⟩
    · rw [prepareAlone_of_none hclosed hc,
        prepareAlone_of_none (l := { l with log, pending, keys }) hclosed hc]
      exact ⟨halike, .error _⟩
    · -- The mask that is drawn here is all in which the two frames differ.
      have hmask : Frame.Alike R { f with masked := true, mask := l.keys l.drawn }
          { f with masked := true, mask := keys l.drawn } := .intro _ (hkeys _)
      obtain ⟨hstate, hanswer⟩ := Pipeline.alike_outgoing hR p hmask
      rw [prepareAlone_of_some hclosed hc,
        prepareAlone_of_some (l := { l with log, pending, keys }) hclosed hc]
      dsimp only
      rw [← hstate]
      refine ⟨.intro log pending keys hlog hpending hkeys hegress, ?_⟩
      -- What is left depends on the answers of the extensions only, which are alike.
      revert hanswer
      generalize (p.outgoing { f with masked := true, mask := l.keys l.drawn }).2 = x
      generalize (p.outgoing { f with masked := true, mask := keys l.drawn }).2 = y
      rintro (hg | e)
      · exact (hg.encode l.inUse).mapError _
      · exact .error _

omit [Extension ε] in
theorem Alike.egress_left (h : l.Alike R l') : l.egress = [] := by
  cases h
  assumption

omit [Extension ε] in
theorem Alike.egress_right (h : l.Alike R l') : l'.egress = [] := by
  cases h
  assumption

omit [Extension ε] in
theorem Alike.writing_eq (h : l.Alike R l') : l.writing = l'.writing := by
  cases h
  rfl

omit [Extension ε] in
theorem Alike.closeSent_eq (h : l.Alike R l') : l.closeSent = l'.closeSent := by
  cases h
  rfl

omit [Extension ε] in
/-- Alike octets join alike queues. -/
theorem Alike.enqueue (h : l.Alike R l') {octets octets' : Bytes}
    (ho : Bytes.Alike R octets octets') :
    Alike R { l with pending := l.pending ++ [octets] }
      { l' with pending := l'.pending ++ [octets'] } := by
  obtain ⟨log, pending, keys, hlog, hpending, hkeys, hegress⟩ := h
  exact .intro log (pending ++ [octets']) keys hlog (List.rel_append hpending (.cons ho .nil))
    hkeys hegress

theorem Alike.accept (hR : Extension.Respects ε R) (h : l.Alike R l') (f : Frame) :
    (l.accept f).1.Alike R (l'.accept f).1 ∧ (l.accept f).2 = (l'.accept f).2 := by
  obtain ⟨hlink, hanswer⟩ := h.prepareAlone hR f
  rcases accept_cases h.egress_left f with ⟨e, hr, ha⟩ | ⟨octets, hr, ha⟩
  all_goals
    rcases accept_cases h.egress_right f with ⟨e', hr', ha'⟩ | ⟨octets', hr', ha'⟩
  all_goals
    rw [ha, ha']
    rw [hr, hr'] at hanswer
  · cases hanswer
    exact ⟨hlink, rfl⟩
  · cases hanswer
  · cases hanswer
  · cases hanswer with
    | ok ho =>
      have hqueued := (hlink.enqueue ho).record (.accept f ho)
      simp only [Link.record, log_prepareAlone, pending_prepareAlone] at hqueued
      exact ⟨hqueued, rfl⟩

theorem Alike.acceptNested (hR : Extension.Respects ε R) (h : l.Alike R l') (o : Outgoing) :
    (l.acceptNested o).Alike R (l'.acceptNested o) := by
  unfold Link.acceptNested
  rcases o.toFrame with e | f
  · exact h.record (.same _)
  · obtain ⟨hlink, hanswer⟩ := h.accept hR f
    dsimp only
    rw [hanswer]
    exact hlink.record (.same _)

omit [Extension ε] in
theorem Alike.foldl {α : Type} {step : Link ε → α → Link ε}
    (hstep : ∀ {l l' : Link ε} (a : α), l.Alike R l' → (step l a).Alike R (step l' a))
    (h : l.Alike R l') (as : List α) : (as.foldl step l).Alike R (as.foldl step l') := by
  induction as generalizing l l' with
  | nil => exact h
  | cons a as ih => exact ih (hstep a h)

omit [Extension ε] in
/-- Alike queues are written alike. -/
theorem alike_writes {pending pending' : List Bytes}
    (h : List.Forall₂ (Bytes.Alike R) pending pending') :
    List.Forall₂ (Event.Alike R) (((pending.map .write).reverse).filter Event.isVisible)
      (((pending'.map .write).reverse).filter Event.isVisible) := by
  have hall (ps : List Bytes) : ((ps.map Event.write).reverse).filter Event.isVisible
      = (ps.map Event.write).reverse := by
    rw [List.filter_eq_self]
    intro e he
    obtain ⟨octets, -, rfl⟩ := List.mem_map.1 (List.mem_reverse.1 he)
    rfl
  rw [hall, hall, List.forall₂_reverse_iff, List.forall₂_map_left_iff, List.forall₂_map_right_iff]
  exact h.imp fun _ _ ho => .write ho

theorem Alike.flushThrough (hR : Extension.Respects ε R) (nested : List (List Outgoing))
    (h : l.Alike R l') : (flushThrough nested l).Alike R (flushThrough nested l') := by
  induction nested generalizing l l' with
  | nil =>
    obtain ⟨log, pending, keys, hlog, hpending, hkeys, hegress⟩ := h
    refine .intro _ [] keys ?_ .nil hkeys hegress
    simp only [Link.seen, Link.flushThrough, List.filter_append]
    exact List.rel_append (alike_writes hpending) hlog
  | cons sends later ih =>
    obtain ⟨log, pending, keys, hlog, hpending, hkeys, hegress⟩ := h
    generalize hp : l.pending = waiting at hpending
    cases hpending with
    | nil =>
      simp only [Link.flushThrough, hp]
      exact .intro log [] keys hlog .nil hkeys hegress
    | @cons octets octets' rest rest' ho hrest =>
      simp only [Link.flushThrough, hp]
      have htaken : Alike R { l with pending := rest } { l with log, pending := rest', keys } :=
        .intro log rest' keys hlog hrest hkeys hegress
      exact ih ((htaken.foldl (fun o h => h.acceptNested hR o) sends).record (.write ho))

theorem Alike.send (hR : Extension.Respects ε R) (h : l.Alike R l') (f : Frame) :
    (l.send f).1.Alike R (l'.send f).1 ∧ (l.send f).2 = (l'.send f).2 := by
  obtain ⟨hlink, hanswer⟩ := h.accept hR f
  unfold Link.send
  rcases hl : l.accept f with ⟨l₁, r⟩
  rcases hl' : l'.accept f with ⟨l₂, r'⟩
  rw [hl, hl'] at hlink hanswer
  obtain rfl : r = r' := hanswer
  rcases r with e | ⟨⟩
  · exact ⟨hlink, rfl⟩
  · refine ⟨?_, rfl⟩
    dsimp only at hlink ⊢
    rw [← hlink.writing_eq]
    split
    · exact hlink
    · unfold Link.flush
      obtain ⟨log, pending, keys, hlog, hpending, hkeys, hegress⟩ := hlink
      exact Alike.flushThrough hR _ (.intro log pending keys hlog hpending hkeys hegress)

theorem Alike.submit (hR : Extension.Respects ε R) (h : l.Alike R l') (o : Outgoing) :
    (l.submit o).1.Alike R (l'.submit o).1 ∧ (l.submit o).2 = (l'.submit o).2 := by
  unfold Link.submit
  rcases o.toFrame with e | f
  · exact ⟨h, rfl⟩
  · exact h.send hR f

/-- On their way in, frames are the same. -/
theorem Alike.incoming (h : l.Alike R l') (f : Frame) :
    (l.incoming f).1.Alike R (l'.incoming f).1 ∧ (l.incoming f).2 = (l'.incoming f).2 := by
  obtain ⟨log, pending, keys, hlog, hpending, hkeys, hegress⟩ := h
  unfold Link.incoming
  dsimp only
  split <;> exact ⟨.intro log pending keys hlog hpending hkeys hegress, rfl⟩

end Link

/-! ### The receiving half -/

variable {σ : Type}

/-- Receiving halves of which the same is to be expected.  One that is closed does not read
any more. -/
inductive Connection.Alike (k : Connection σ) : Connection σ → Prop
  | intro (decoder : Decoder) (buffer : Array UInt8)
      (hopen : k.closed = false → decoder = k.decoder ∧ buffer = k.buffer) :
      Alike k { k with decoder, buffer }

namespace Connection.Alike

variable {k k' k'' : Connection σ}

theorem refl (k : Connection σ) : k.Alike k :=
  .intro k.decoder k.buffer fun _ => ⟨rfl, rfl⟩

theorem symm (h : k.Alike k') : k'.Alike k := by
  obtain ⟨decoder, buffer, hopen⟩ := h
  exact .intro k.decoder k.buffer fun hc => ⟨(hopen hc).1.symm, (hopen hc).2.symm⟩

theorem trans (h : k.Alike k') (h' : k'.Alike k'') : k.Alike k'' := by
  obtain ⟨decoder, buffer, hopen⟩ := h
  obtain ⟨decoder', buffer', hopen'⟩ := h'
  exact .intro decoder' buffer' fun hc =>
    ⟨(hopen' hc).1.trans (hopen hc).1, (hopen' hc).2.trans (hopen hc).2⟩

end Connection.Alike

namespace Channel

/-- Channels of which the same is to be expected, and that look the same so far. -/
inductive Alike (R : UInt32 → UInt32 → Prop) (c : Channel σ ε) : Channel σ ε → Prop
  | intro (decoder : Decoder) (buffer : Array UInt8) (link : Link ε) (hlink : c.link.Alike R link)
      (hopen : c.closed = false → decoder = c.decoder ∧ buffer = c.buffer) :
      Alike R c { c with decoder, buffer, link }

omit [Extension ε] in
theorem alike_iff {c c' : Channel σ ε} :
    c.Alike R c' ↔ c.toConnection.Alike c'.toConnection ∧ c.link.Alike R c'.link := by
  constructor
  · rintro ⟨decoder, buffer, link, hlink, hopen⟩
    exact ⟨.intro decoder buffer hopen, hlink⟩
  · obtain ⟨k, link⟩ := c
    obtain ⟨k', link'⟩ := c'
    rintro ⟨⟨decoder, buffer, hopen⟩, hlink⟩
    exact .intro decoder buffer link' hlink hopen

variable {c c' : Channel σ ε} {link : Link ε}

omit [Extension ε] in
theorem Alike.of_link (h : c.link.Alike R link) : c.Alike R { c with link } :=
  .intro c.decoder c.buffer link h fun _ => ⟨rfl, rfl⟩

omit [Extension ε] in
theorem Alike.record (h : c.Alike R c') (e : Event) : (c.record e).Alike R (c'.record e) := by
  obtain ⟨decoder, buffer, link, hlink, hopen⟩ := h
  exact .intro decoder buffer _ (hlink.record (.same e)) hopen

omit [Extension ε] in
theorem Alike.shutdown (h : c.Alike R c') : c.shutdown.Alike R c'.shutdown := by
  obtain ⟨decoder, buffer, link, hlink, -⟩ := h
  obtain ⟨log, pending, keys, hlog, hpending, hkeys, hegress⟩ := hlink
  have hclosed : Link.Alike R { c.link with closed := true }
      { c.link with closed := true, log, pending, keys } :=
    .intro log pending keys hlog hpending hkeys hegress
  exact .intro decoder buffer _ (hclosed.record (.same .close)) nofun

omit [Extension ε] in
/-- What a closed channel has left unread makes no difference. -/
theorem Alike.of_closed (h : c.Alike R c') (hc : c'.closed) (buffer : Array UInt8) :
    c.Alike R { c' with buffer } := by
  obtain ⟨decoder, _, link, hlink, -⟩ := h
  exact .intro decoder buffer link hlink fun hopen => absurd hc (by simp [hopen])

theorem Alike.respond (hR : Extension.Respects ε R) (h : c.link.Alike R link) (f : Frame) :
    (c.respond f).Alike R (Channel.respond { c with link } f) := by
  unfold Channel.respond
  split
  · obtain ⟨hlink, hanswer⟩ := h.send hR (.single .pong f.payload)
    dsimp only
    rw [← hanswer]
    split
    · exact .of_link hlink
    · exact .of_link hlink
    · exact (Alike.of_link (c := { c with link := _ }) hlink).shutdown
  · obtain ⟨hlink, -⟩ := h.send hR (.single .close (Close.answer f.payload))
    dsimp only
    rw [← h.closeSent_eq]
    split
    · exact (Alike.of_link h).shutdown
    · exact (Alike.of_link (c := { c with link := _ }) hlink).shutdown
  · exact .of_link h

theorem alike_reply (hR : Extension.Respects ε R) {l l' : Link ε} (h : l.Alike R l')
    (o : Outgoing) : (reply l o).Alike R (reply l' o) := by
  obtain ⟨hlink, hanswer⟩ := h.submit hR o
  unfold reply
  dsimp only
  rw [hanswer]
  exact hlink.record (.same _)

variable [Session σ]

theorem Alike.deliver (hR : Extension.Respects ε R) (h : c.link.Alike R link) (f : Frame) :
    (c.deliver f).Alike R (Channel.deliver { c with link } f) := by
  have hsends := (h.record (.same (.deliver f))).foldl (fun o h => alike_reply hR h o)
    (Session.receive c.session f).2.sends
  unfold Channel.deliver
  dsimp only
  split
  · exact (Alike.of_link (c := { c with session := _, link := _ }) hsends).shutdown
  · exact Alike.respond (c := { c with session := _, link := _ }) hR hsends f

theorem Alike.take (hR : Extension.Respects ε R) (h : c.link.Alike R link) (f : Frame) :
    (c.take f).Alike R (Channel.take { c with link } f) := by
  have hincoming := h.incoming f
  unfold Channel.take
  dsimp only
  rw [← hincoming.2]
  split
  · exact Alike.deliver (c := { c with link := _ }) hR hincoming.1 _
  · exact (Alike.of_link (c := { c with link := _ }) hincoming.1).shutdown

theorem Alike.process (hR : Extension.Respects ε R) (h : c.Alike R c') (input : Bytes) :
    (c.process input).Alike R (c'.process input) := by
  -- As long as the first channel is open, `hopen` says that the other has the same decoder,
  -- so both take the same exit.
  induction c, input using process_induction generalizing c' with
  | closed c input hc =>
    obtain ⟨decoder, buffer, link, hlink, -⟩ := h
    rw [process_of_closed hc, process_of_closed (c := { c with decoder, buffer, link }) hc]
    exact .intro decoder _ link hlink fun hopen => absurd hc (Bool.eq_false_iff.1 hopen)
  | wait c input hc hd =>
    obtain ⟨decoder, buffer, link, hlink, hopen⟩ := h
    obtain ⟨rfl, rfl⟩ := hopen hc
    rw [process_of_wait hc hd, process_of_wait (c := { c with link }) hc hd]
    exact .of_link (c := { c with decoder := _, buffer := _ }) hlink
  | error c input e hc hd =>
    obtain ⟨decoder, buffer, link, hlink, hopen⟩ := h
    obtain ⟨rfl, rfl⟩ := hopen hc
    rw [process_of_error hc hd, process_of_error (c := { c with link }) hc hd]
    let d := c.decoder.decode input
    let read : Channel σ ε := { c with decoder := d.decoder, buffer := d.rest.toArray }
    exact (Alike.of_link (c := read) hlink).shutdown
  | frame c input f hc hd ih =>
    obtain ⟨decoder, buffer, link, hlink, hopen⟩ := h
    obtain ⟨rfl, rfl⟩ := hopen hc
    rw [process_of_frame hc hd, process_of_frame (c := { c with link }) hc hd]
    let read : Channel σ ε := { c with decoder := (c.decoder.decode input).decoder }
    exact ih (Alike.take (c := read) hR hlink f)

omit [Extension ε] [Session σ] in
theorem Alike.closed_eq (h : c.Alike R c') : c.closed = c'.closed := by
  cases h
  rfl

omit [Extension ε] [Session σ] in
theorem Alike.buffer_eq (h : c.Alike R c') (hc : c.closed = false) : c.buffer = c'.buffer := by
  obtain ⟨decoder, buffer, link, -, hopen⟩ := h
  exact (hopen hc).2.symm

theorem Alike.proceed (hR : Extension.Respects ε R) (h : c.Alike R c') :
    c.proceed.Alike R c'.proceed := by
  cases hc : c.closed with
  | true => simpa [Channel.proceed, hc, h.closed_eq ▸ hc] using h
  | false =>
    rw [proceed_eq_process, proceed_eq_process, ← h.buffer_eq hc]
    exact h.process hR _

omit [Extension ε] [Session σ] in
theorem Alike.await (h : c.Alike R c') : c.await.Alike R c'.await := by
  unfold Channel.await
  rw [← h.closed_eq]
  split
  · exact h
  · exact h.record _

omit [Extension ε] [Session σ] in
theorem Alike.record_left (h : c.Alike R c') {e : Event} (he : e.isVisible = false) :
    (c.record e).Alike R c' := by
  obtain ⟨decoder, buffer, link, hlink, hopen⟩ := h
  exact .intro decoder buffer link (hlink.record_left he) hopen

omit [Extension ε] [Session σ] in
theorem Alike.await_left (h : c.Alike R c') : c.await.Alike R c' := by
  unfold Channel.await
  split
  · exact h
  · exact h.record_left rfl

omit [Extension ε] [Session σ] in
/-- Octets that arrive are put behind those that are there. -/
theorem Alike.push (h : c.Alike R c') (octets : Bytes) :
    Alike R { c with buffer := c.buffer ++ octets } { c' with buffer := c'.buffer ++ octets } := by
  obtain ⟨decoder, buffer, link, hlink, hopen⟩ := h
  exact .intro decoder _ link hlink fun hc => ⟨(hopen hc).1, by rw [(hopen hc).2]⟩

theorem Alike.readable (hR : Extension.Respects ε R) (h : c.Alike R c') (input : List Inbound) :
    (c.readable input).1.Alike R (c'.readable input).1
      ∧ (c.readable input).2 = (c'.readable input).2 := by
  induction c, input using readable_induction generalizing c' with
  | closed c input hc =>
    rw [readable_of_closed hc, readable_of_closed (h.closed_eq ▸ hc)]
    exact ⟨h, rfl⟩
  | nil c hc =>
    rw [readable_nil hc, readable_nil (h.closed_eq ▸ hc)]
    exact ⟨(h.record _).await, rfl⟩
  | empty c input hc =>
    rw [readable_empty hc, readable_empty (h.closed_eq ▸ hc)]
    exact ⟨(h.record _).await, rfl⟩
  | data_nil c input hc =>
    rw [readable_data_nil hc, readable_data_nil (h.closed_eq ▸ hc)]
    exact ⟨(h.record _).await, rfl⟩
  | data c octets input hc hne ih =>
    rw [readable_data hc hne, readable_data (h.closed_eq ▸ hc) hne]
    exact ih (((h.record _).push octets).proceed hR)
  | ended c input hc =>
    rw [readable_ended hc, readable_ended (h.closed_eq ▸ hc)]
    exact ⟨(h.record _).shutdown, rfl⟩
  | failed c message input hc =>
    rw [readable_failed hc, readable_failed (h.closed_eq ▸ hc)]
    exact ⟨(h.record _).shutdown, rfl⟩

/-- Whatever the endpoint calls them for, alike channels do alike. -/
theorem Alike.react (hR : Extension.Respects ε R) (h : c.Alike R c') (input : List Inbound)
    (cb : Callback) :
    (c.react input cb).1.Alike R (c'.react input cb).1
      ∧ (c.react input cb).2 = (c'.react input cb).2 := by
  cases cb with
  | opened => exact ⟨(h.proceed hR).await, rfl⟩
  | readable => exact h.readable hR input
  | written failure =>
    unfold Channel.react Channel.written
    dsimp only
    split
    · exact ⟨h.shutdown, rfl⟩
    · exact ⟨h, rfl⟩
  | aborted =>
    unfold Channel.react Channel.aborted
    dsimp only
    rw [← h.closed_eq]
    split
    · exact ⟨h, rfl⟩
    · exact ⟨h.shutdown, rfl⟩

end Channel

end WebSocket
